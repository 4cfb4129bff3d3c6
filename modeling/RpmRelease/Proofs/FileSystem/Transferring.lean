import RpmRelease.Proofs.FileSystem.Mirroring
import RpmRelease.Proofs.Manifest.Copying

/-!
# Trees that are copied behind a directory

A tree is copied behind a directory that is there, at a place where something may be already, and neither
it nor that directory is in the other one as far as the walk goes.  Then copying makes changes of two
sorts: the copy of a node of the tree is put under the names of the node behind the place, and
directories are created on the way to the place.  None of them changes a node that the walk meets.  So
what is copied is what was there before, however much the copy adds and wherever it ends.

`Transfer.Step` is such a change, `Transfer.Fits` is what it preserves, and `Transfer.makes_copyTree`
says that there are no other changes.
-/

set_option autoImplicit false

namespace RpmRelease

open Relation (ReflTransGen)
open Lookup (Behind NoLinks)

/-- A copy is of the kind of what it was made of. -/
@[simp] theorem Node.kind_copied (caller : Caller) (node : Node) :
    (node.copied caller).kind = node.kind := by
  cases node <;> rfl

namespace Storage

/-- A tree and where it is copied to: to names behind a directory that a path leads to. -/
structure Transfer where
  caller : Caller
  skip : List Path
  source : Path
  destination : Path
  base : Path
  /-- where the tree is -/
  origin : Location
  /-- where the directory is -/
  spot : Location
  /-- the names behind it -/
  front : Location
  named : source.text ≠ ""
  behind : Behind base front destination
  apart : ∀ names, Kept skip source names → ¬ spot <+: origin ++ names

namespace Transfer

/-- Where the copy goes. -/
def place (t : Transfer) : Location := t.spot ++ t.front

/-- A single change that copying makes. -/
inductive Step (t : Transfer) (fs : FileSystem) : FileSystem → Prop
  /-- the copy of a node is put -/
  | put {names : Location} {original : Node} (kept : Kept t.skip t.source names)
    (source : fs.get? (t.origin ++ names) = some original)
    (puts : fs.Puts (t.place ++ names) (original.copied t.caller)) :
    Step t fs (fs.set (t.place ++ names) (original.copied t.caller))
  /-- a directory is created on the way to the place -/
  | way {names : Location} (before : names <+: t.front) (nonempty : names ≠ [])
    (proper : names ≠ t.front) (vacant : fs.get? (t.spot ++ names) = none)
    (puts : fs.Puts (t.spot ++ names) (.directory Mode.directory t.caller.now)) :
    Step t fs (fs.set (t.spot ++ names) (.directory Mode.directory t.caller.now))

/-- The tree can be copied: the directory is there, and in the place of the copy there are links only
where there are links in the tree. -/
structure Fits (t : Transfer) (fs : FileSystem) : Prop where
  wellFormed : fs.WellFormed
  leads : ∃ node, Lookup.find t.caller fs true t.base = .ok (t.spot, node) ∧ node.kind = .directory
  way : NoLinks fs t.spot t.front
  links : ∀ names, Kept t.skip t.source names → ∀ target time,
    fs.get? (t.place ++ names) = some (.link target time) →
    ∀ node, fs.get? (t.origin ++ names) = some node → node.kind = .link

variable {t : Transfer} {fs fs' : FileSystem} {names more : Location} {l k : Location}
  {node original : Node}

/-! ## What a change preserves -/

/-- What is above the place of the copy is not in it. -/
theorem ne_place (hbefore : names <+: t.front) (hproper : names ≠ t.front) (more : Location) :
    t.spot ++ names ≠ t.place ++ more := by
  rw [place, List.append_assoc]
  intro heq
  have hfront : t.front <+: names := List.append_cancel_left heq ▸ List.prefix_append _ _
  exact hproper (hbefore.eq_of_length_le hfront.length_le)

/-- Every change puts a node behind the directory. -/
theorem Step.exists_puts (h : t.Step fs fs') :
    ∃ l new, t.spot <+: l ∧ fs.Puts l new ∧ fs' = fs.set l new := by
  cases h with
  | put kept source puts =>
      exact ⟨_, _, List.append_assoc .. ▸ List.prefix_append _ _, puts, rfl⟩
  | way _ _ _ _ puts => exact ⟨_, _, List.prefix_append _ _, puts, rfl⟩

/-- What the walk may meet does not change. -/
theorem Step.get?_origin (h : t.Step fs fs') (hkept : Kept t.skip t.source names) :
    fs'.get? (t.origin ++ names) = fs.get? (t.origin ++ names) := by
  obtain ⟨l, new, hspot, -, rfl⟩ := h.exists_puts
  rw [FileSystem.get?_set, if_neg]
  rintro rfl
  exact t.apart names hkept hspot

/-- A path to what is no file leads there still. -/
theorem Step.find (h : t.Step fs fs') {path : Path} {follow : Bool} (hkind : node.kind ≠ .file)
    (hfind : Lookup.find t.caller fs follow path = .ok (l, node)) :
    Lookup.find t.caller fs' follow path = .ok (l, node) := by
  obtain ⟨k, new, -, puts, rfl⟩ := h.exists_puts
  obtain ⟨node', hfind', -, hsame⟩ := puts.find_set hfind
  rwa [hsame hkind] at hfind'

/-- A path to what the walk may meet leads there still. -/
theorem Step.find_origin (h : t.Step fs fs') {path : Path} {follow : Bool}
    (hkept : Kept t.skip t.source names)
    (hfind : Lookup.find t.caller fs follow path = .ok (t.origin ++ names, node)) :
    Lookup.find t.caller fs' follow path = .ok (t.origin ++ names, node) := by
  have hsame := h.get?_origin hkept
  obtain ⟨k, new, -, puts, rfl⟩ := h.exists_puts
  obtain ⟨node', hfind', -, -⟩ := puts.find_set hfind
  rw [Lookup.get?_of_find hfind', Lookup.get?_of_find hfind] at hsame
  rwa [Option.some.inj hsame] at hfind'

/-- The tree still fits after a change that copying makes. -/
theorem Fits.step (fits : t.Fits fs) (h : t.Step fs fs') : t.Fits fs' where
  wellFormed := by
    obtain ⟨l, new, -, puts, rfl⟩ := h.exists_puts
    exact fits.wellFormed.put puts
  leads := by
    obtain ⟨node, hbase, hkind⟩ := fits.leads
    exact ⟨node, h.find (by simp [hkind]) hbase, hkind⟩
  way := by
    intro names hbefore hne hproper target time hlink
    cases h with
    | put kept source puts =>
        rw [FileSystem.get?_set, if_neg (ne_place hbefore hproper _).symm] at hlink
        exact fits.way names hbefore hne hproper target time hlink
    | way before nonempty proper vacant puts =>
        rw [FileSystem.get?_set] at hlink
        split at hlink
        · simp at hlink
        · exact fits.way names hbefore hne hproper target time hlink
  links := by
    intro names hkept target time hlink node hnode
    rw [h.get?_origin hkept] at hnode
    cases h with
    | @put others original kept source puts =>
        rw [FileSystem.get?_set] at hlink
        split at hlink
        · next heq =>
            -- the link is the copy of what is met under these names
            obtain rfl := List.append_cancel_left heq
            obtain rfl := Option.some.inj (source.symm.trans hnode)
            rw [← Node.kind_copied t.caller original, Option.some.inj hlink]
            rfl
        · exact fits.links names hkept target time hlink node hnode
    | way before nonempty proper vacant puts =>
        rw [FileSystem.get?_set, if_neg (ne_place before proper names)] at hlink
        exact fits.links names hkept target time hlink node hnode

/-- The tree still fits after all changes that copying makes. -/
theorem Fits.changes (fits : t.Fits fs) (h : ReflTransGen t.Step fs fs') : t.Fits fs' := by
  induction h with
  | refl => exact fits
  | tail _ hstep ih => exact ih.step hstep

/-- What is kept of the source is not changed. -/
theorem get?_origin_of_changes (h : ReflTransGen t.Step fs fs') (hkept : Kept t.skip t.source names) :
    fs'.get? (t.origin ++ names) = fs.get? (t.origin ++ names) := by
  induction h with
  | refl => rfl
  | tail _ hstep ih => exact (hstep.get?_origin hkept).trans ih

/-- A path leads where it led, if that is no file. -/
theorem find_of_changes (h : ReflTransGen t.Step fs fs') {path : Path} {follow : Bool}
    (hkind : node.kind ≠ .file) (hfind : Lookup.find t.caller fs follow path = .ok (l, node)) :
    Lookup.find t.caller fs' follow path = .ok (l, node) := by
  induction h with
  | refl => exact hfind
  | tail _ hstep ih => exact hstep.find hkind ih

/-- A path that leads to something of the source still does, if that is kept. -/
theorem find_origin_of_changes (h : ReflTransGen t.Step fs fs') {path : Path} {follow : Bool}
    (hkept : Kept t.skip t.source names)
    (hfind : Lookup.find t.caller fs follow path = .ok (t.origin ++ names, node)) :
    Lookup.find t.caller fs' follow path = .ok (t.origin ++ names, node) := by
  induction h with
  | refl => exact hfind
  | tail _ hstep ih => exact hstep.find_origin hkept ih

/-! ## Directories that may be created -/

/-- Names behind the directory are on the way to the place, or the names of a directory of the tree. -/
def Passable (t : Transfer) (fs : FileSystem) (names : Location) : Prop :=
  (names <+: t.front ∧ names ≠ t.front) ∨
    ∃ more node, names = t.front ++ more ∧ Kept t.skip t.source more ∧
      fs.get? (t.origin ++ more) = some node ∧ node.kind = .directory

/-- Names that are passable stay so. -/
theorem Passable.changes (h : t.Passable fs names) (hchanges : ReflTransGen t.Step fs fs') :
    t.Passable fs' names := by
  rcases h with hway | ⟨more, node, rfl, hkept, hnode, hkind⟩
  · exact .inl hway
  · exact .inr ⟨more, node, rfl, hkept, by rw [get?_origin_of_changes hchanges hkept, hnode], hkind⟩

/-- Names on the way to a node of the tree lead through directories. -/
theorem passable_of_prefix (wf : fs.WellFormed) (hkept : Kept t.skip t.source more)
    (hnode : fs.get? (t.origin ++ more) = some node) (hnames : names <+: t.front ++ more)
    (hlast : names = t.front ++ more → node.kind = .directory) : t.Passable fs names := by
  by_cases hbefore : names <+: t.front ∧ names ≠ t.front
  · exact .inl hbefore
  have hfront : t.front <+: names := by
    rcases List.prefix_or_prefix_of_prefix hnames (List.prefix_append t.front more) with h | h
    · rw [not_not.1 fun hne => hbefore ⟨h, hne⟩]
    · exact h
  obtain ⟨rest, rfl⟩ := hfront
  have hrest : rest <+: more := (List.prefix_append_right_inj _).1 hnames
  by_cases hwhole : rest = more
  · subst hwhole
    exact .inr ⟨rest, node, rfl, hkept, hnode, hlast rfl⟩
  · obtain ⟨directory, hdirectory, hkind⟩ := wf.directory_above hnode
      ((List.prefix_append_right_inj t.origin).2 hrest) (by simpa using hwhole)
    exact .inr ⟨rest, directory, rfl, hkept.front hrest, hdirectory, hkind⟩

/-- Where names may lead through directories, there are no links on the way. -/
theorem Fits.noLinks (fits : t.Fits fs)
    (h : ∀ front, front <+: names → front ≠ [] → front ≠ names → t.Passable fs front) :
    NoLinks fs t.spot names := by
  intro front hfront hne hproper target time hlink
  rcases h front hfront hne hproper with ⟨hbefore, hwhole⟩ | ⟨more, node, rfl, hkept, hnode, hkind⟩
  · exact fits.way front hbefore hne hwhole target time hlink
  · rw [← List.append_assoc] at hlink
    simp [fits.links more hkept target time hlink node hnode] at hkind

/-- There are no links on the way to the copy of a node. -/
theorem Fits.noLinks_of_node (fits : t.Fits fs) (hkept : Kept t.skip t.source more)
    (hnode : fs.get? (t.origin ++ more) = some node) : NoLinks fs t.spot (t.front ++ more) :=
  fits.noLinks fun _ hfront _ hproper =>
    passable_of_prefix fits.wellFormed hkept hnode hfront fun heq => absurd heq hproper

/-- Where the copy of anything but a link goes, there is no link. -/
theorem Fits.ne_link (fits : t.Fits fs) (hkept : Kept t.skip t.source more)
    (hnode : fs.get? (t.origin ++ more) = some node) (hkind : node.kind ≠ .link) (target : String)
    (time : Int) : fs.get? (t.spot ++ (t.front ++ more)) ≠ some (.link target time) := by
  rw [← List.append_assoc]
  exact fun hlink => hkind (fits.links more hkept target time hlink node hnode)

/-! ## Programs -/

/-- Creating directories on the way to the place, or where directories of the tree are copied to. -/
theorem Fits.makes_createDirectories {p : Path} (fits : t.Fits fs)
    (hpassable : ∀ front, front <+: names → front ≠ [] → t.Passable fs front)
    (habsolute : p.isAbsolute = t.base.isAbsolute)
    (hp : p.components <+: t.base.components ++ names.map .normal) :
    Makes t.Step t.caller fs (createDirectories p) fun _ _ => True := by
  refine makes_createAncestors fun q hq fs₁ fs₂ hchanges hmake => ?_
  obtain ⟨hcomponents, habove⟩ := Path.components_of_mem_ancestors hq
  have fits₁ := fits.changes hchanges
  obtain ⟨base, hbase, -⟩ := fits₁.leads
  obtain ⟨l, name, slash, hentry, hvacant, puts, rfl⟩ :=
    FileSystem.puts_of_makeDirectory fits₁.wellFormed hmake
  rcases Manifest.Layout.prefix_or_behind (hcomponents.trans hp) with hbefore |
    ⟨front, hfront, hne, hbehind⟩
  · obtain ⟨entry, hthere⟩ := Lookup.entry_above (habove.trans habsolute) hbefore hbase hentry
    simp [hvacant] at hthere
  · have hpassable₁ (other : Location) (hother : other <+: names) (hne : other ≠ []) :=
      (hpassable other hother hne).changes hchanges
    have hlinks := fits₁.noLinks fun other hother hne _ => hpassable₁ other (hother.trans hfront) hne
    rw [hbehind.entry_eq hne hbase hlinks hentry] at puts hvacant ⊢
    rcases hpassable₁ front hfront hne with ⟨hway, hproper⟩ | ⟨more, node, rfl, hkept, hnode, hkind⟩
    · exact .way hway hne hproper hvacant puts
    · have hcopied : node.copied t.caller = .directory Mode.directory t.caller.now :=
        Node.copied_of_directory hkind
      rw [← List.append_assoc, ← hcopied] at puts ⊢
      exact .put hkept hnode puts

/-- Copying a file or a link of the tree. -/
theorem Fits.makes_copyEntry {source destination : Path} (fits : t.Fits fs)
    (hkept : Kept t.skip t.source names)
    (hsource : Lookup.find t.caller fs false source = .ok (t.origin ++ names, original))
    (hdestination : Behind t.base (t.front ++ names) destination) :
    Makes t.Step t.caller fs (copyEntry source destination original) fun _ _ => True := by
  obtain ⟨f, hchange⟩ := exists_copyEntry_eq_change source destination original
  rw [hchange]
  refine .change fun fs' hexec => ?_
  rw [← hchange] at hexec
  obtain ⟨base, hbase, hbaseKind⟩ := fits.leads
  have hnode := Lookup.get?_of_find hsource
  obtain ⟨-, copy, rfl, puts, -, hcopied⟩ := of_copyEntry_ok fits.wellFormed hsource rfl hbase hbaseKind
    hdestination (fits.noLinks_of_node hkept hnode) (fits.ne_link hkept hnode) hexec
  have hplaces : t.origin ++ names ≠ t.spot ++ (t.front ++ names) := fun heq =>
    t.apart names hkept (heq ▸ List.prefix_append _ _)
  obtain rfl := hcopied hplaces
  rw [← List.append_assoc] at puts ⊢
  exact .put hkept hnode puts

/-- By names from the source, a path leads to the node that is there under these names, if it leads
anywhere. -/
structure Meets (t : Transfer) (fs : FileSystem) (names : Location) (node : Node) : Prop where
  kept : Kept t.skip t.source names
  there : fs.get? (t.origin ++ names) = some node
  leads : ∀ r, Lookup.find t.caller fs false (t.source.along names) = .ok r →
    r = (t.origin ++ names, node)

/-- Names that lead to a node of the tree are proper ones. -/
theorem Meets.isName (meets : t.Meets fs names node) (wf : fs.WellFormed) :
    ∀ name ∈ names, Path.IsName name :=
  fun name hname => wf.isName _ node meets.there name (List.mem_append_right _ hname)

/-- The destination is no empty path. -/
theorem Fits.destination_ne (fits : t.Fits fs) : t.destination.text ≠ "" := by
  obtain ⟨base, hbase, -⟩ := fits.leads
  exact t.behind.text_ne_empty (Lookup.of_checkText_ok (Lookup.find_eq_ok_iff.1 hbase).1).1

/-- The place of a copy is behind the base, and nothing changes when it is found. -/
theorem Fits.makes_placeBelow (fits : t.Fits fs) (hnames : ∀ name ∈ names, Path.IsName name) :
    Makes t.Step t.caller fs (placeBelow t.source t.destination (t.source.along names))
      fun target fs' => fs' = fs ∧ Behind t.base (t.front ++ names) target := by
  unfold placeBelow
  split
  · next rest hrest =>
      have hbehind := (Lookup.behind_along t.named hnames).join_below t.named fits.destination_ne hrest
      exact .pure ⟨rfl, t.behind.trans hbehind⟩
  · exact .throw

/-- The walk meets the node that is there, and nothing changes. -/
theorem Meets.makes_nodeMet (meets : t.Meets fs names node) :
    Makes t.Step t.caller fs (nodeMet (t.source.along names)) fun met fs' =>
      fs' = fs ∧ met = node ∧
        Lookup.find t.caller fs false (t.source.along names) = .ok (t.origin ++ names, node) := by
  refine Makes.query.weaken fun met fs' _ h => ⟨h.1, ?_⟩
  obtain ⟨l, hfind⟩ := Lookup.lstat_eq_ok_iff.1 (Run.of_mapError_ok h.2)
  obtain ⟨rfl, rfl⟩ : l = t.origin ++ names ∧ met = node := by
    simpa using meets.leads _ hfind
  exact ⟨rfl, hfind⟩

/-- What is in a directory that the walk has met, and not to be skipped, is met next. -/
theorem Meets.entry {entry : String × Node} {directory : Node} (wf : fs.WellFormed)
    (hkept : Kept t.skip t.source names)
    (hdirectory : Lookup.find t.caller fs true (t.source.along names) = .ok (t.origin ++ names, directory))
    (hentry : fs.get? (t.origin ++ (names ++ [entry.1])) = some entry.2)
    (hskip : t.skip.any ((t.source.along names).join ⟨entry.1⟩).same = false) :
    t.Meets fs (names ++ [entry.1]) entry.2 where
  kept := kept_concat hkept (by rwa [Path.along_concat])
  there := hentry
  leads := by
    intro r hr
    have hname : Path.IsName entry.1 := wf.isName _ entry.2 hentry entry.1 (by simp)
    rw [Path.along_concat] at hr
    rw [← List.append_assoc] at hentry ⊢
    exact Lookup.eq_of_find_join hdirectory hname hentry (.inl rfl) hr

/-- Copying one entry of a directory. -/
theorem Meets.makes_copyMet {deeper : Path → Storage Failure Nat} {entry : String × Node}
    (fits : t.Fits fs) (meets : t.Meets fs (names ++ [entry.1]) entry.2)
    (hdeeper : entry.2.kind = .directory →
      Makes t.Step t.caller fs (deeper (t.source.along (names ++ [entry.1]))) fun _ _ => True) :
    Makes t.Step t.caller fs
      (copyMet t.skip t.source t.destination deeper (t.source.along names) entry) fun _ _ => True := by
  unfold copyMet
  rw [← Path.along_concat]
  split
  · next hkind => exact hdeeper (by simpa using hkind)
  · dsimp only
    split
    · exact .pure trivial
    · refine (fits.makes_placeBelow (meets.isName fits.wellFormed)).bind ?_
      rintro target _ - ⟨rfl, htarget⟩
      refine meets.makes_nodeMet.bind ?_
      rintro met _ - ⟨rfl, rfl, hfind⟩
      exact (fits.makes_copyEntry meets.kept hfind htarget).mapError.bind fun _ _ _ _ =>
        .pure trivial

/-- Creating the copy of a directory of the tree. -/
theorem Meets.makes_createTarget {target : Path} (fits : t.Fits fs) (meets : t.Meets fs names node)
    (hkind : node.kind = .directory) (htarget : Behind t.base (t.front ++ names) target) :
    Makes t.Step t.caller fs (createDirectories target) fun _ _ => True :=
  fits.makes_createDirectories
    (fun _ hfront _ => passable_of_prefix fits.wellFormed meets.kept meets.there hfront fun _ => hkind)
    htarget.isAbsolute (htarget ▸ List.prefix_rfl)

/-- An entry that has been listed is there until it is its turn. -/
theorem Fits.meets_listed {entry : String × Node} {directory : Node} (fits : t.Fits fs)
    (hkept : Kept t.skip t.source names)
    (hdirectory : Lookup.find t.caller fs true (t.source.along names) = .ok (t.origin ++ names, directory))
    (hkind : directory.kind = .directory) (hmem : entry ∈ fs.children (t.origin ++ names))
    (hskip : t.skip.any ((t.source.along names).join ⟨entry.1⟩).same = false)
    (h : ReflTransGen t.Step fs fs') : t.Meets fs' (names ++ [entry.1]) entry.2 := by
  have hkept' := kept_concat hkept (by rwa [Path.along_concat])
  have hentry : fs'.get? (t.origin ++ (names ++ [entry.1])) = some entry.2 := by
    rw [get?_origin_of_changes h hkept', ← List.append_assoc]
    exact FileSystem.mem_children.1 hmem
  exact .entry (fits.changes h).wellFormed hkept (find_of_changes h (by simp [hkind]) hdirectory)
    hentry hskip

/-- Copying an entry that has been listed, when it is its turn. -/
theorem Fits.makes_listed {steps : Nat} {entry : String × Node} {directory : Node} (fits : t.Fits fs)
    (hkept : Kept t.skip t.source names)
    (hdirectory : Lookup.find t.caller fs true (t.source.along names) = .ok (t.origin ++ names, directory))
    (hkind : directory.kind = .directory) (hmem : entry ∈ fs.children (t.origin ++ names))
    (hdeeper : ∀ {fs' : FileSystem} {node : Node}, t.Fits fs' →
      t.Meets fs' (names ++ [entry.1]) node → node.kind = .directory →
      Makes t.Step t.caller fs' (copyDirectory t.skip t.source t.destination steps
        (t.source.along (names ++ [entry.1]))) fun _ _ => True)
    (h : ReflTransGen t.Step fs fs') :
    Makes t.Step t.caller fs' (copyMet t.skip t.source t.destination
      (copyDirectoryBy FileSystem.children t.skip t.source t.destination steps)
      (t.source.along names) entry) fun _ _ => True := by
  cases hskip : t.skip.any ((t.source.along names).join ⟨entry.1⟩).same with
  | true => exact ⟨by rw [exec_copyMet_of_skip hskip], fun _ _ => trivial⟩
  | false =>
      have meets := fits.meets_listed hkept hdirectory hkind hmem hskip h
      refine meets.makes_copyMet (fits.changes h) fun hentryKind => ?_
      rw [copyDirectoryBy_children]
      exact hdeeper (fits.changes h) meets hentryKind

/-- Copying a directory of the tree and everything below it. -/
theorem Meets.makes_copyDirectory {steps : Nat} (fits : t.Fits fs) (meets : t.Meets fs names node)
    (hkind : node.kind = .directory) :
    Makes t.Step t.caller fs
      (copyDirectory t.skip t.source t.destination steps (t.source.along names)) fun _ _ => True := by
  -- on the depth; the tree still fits after each change that was made on the way
  induction steps generalizing fs names node with
  | zero => exact .pure trivial
  | succ steps ih =>
      rw [← copyDirectoryBy_children, copyDirectoryBy]
      refine Makes.attempt_query.bind ?_
      rintro opened _ - ⟨rfl, hopened⟩
      split
      · exact .pure trivial
      · refine (fits.makes_placeBelow (meets.isName fits.wellFormed)).bind ?_
        rintro target _ - ⟨rfl, htarget⟩
        refine meets.makes_nodeMet.bind ?_
        rintro met _ - ⟨rfl, rfl, hfind⟩
        refine (meets.makes_createTarget fits hkind htarget).mapError.bind fun _ fs₁ h₁ _ => ?_
        rcases opened with e | ⟨l, found⟩
        · exact Makes.bind .throw fun _ _ _ h => absurd h id
        · have hfollow := Lookup.find_follow (by simp [hkind]) hfind
          obtain ⟨rfl, rfl⟩ : l = t.origin ++ names ∧ found = met := by
            obtain ⟨_, _, hopened⟩ := Run.of_bind_ok hopened
            simpa using hopened.symm.trans hfollow
          refine Makes.bind (.pure (Q := fun place fs' =>
            place = (t.origin ++ names, found) ∧ fs' = fs₁) ⟨rfl, rfl⟩) ?_
          rintro _ _ - ⟨rfl, rfl⟩
          refine Makes.query.bind ?_
          rintro entries _ - ⟨rfl, hentries⟩
          obtain rfl := Except.ok.inj hentries
          refine Makes.countOver fun entry hmem fs₂ h₂ => ?_
          have hdirectory := find_of_changes h₁ (by simp [hkind]) hfollow
          exact (fits.changes h₁).makes_listed meets.kept hdirectory hkind hmem ih h₂

/-- Creating the directory that holds the place. -/
theorem Fits.makes_createAbove {above : Path} (fits : t.Fits fs)
    (hparent : t.destination.parent? = some above) :
    Makes t.Step t.caller fs (createDirectories above) fun _ _ => True := by
  obtain ⟨hcomponents, habsolute⟩ := Path.components_parent? hparent
  have hpassable (front : Location) (hfront : front <+: t.front.dropLast) (hne : front ≠ []) :
      t.Passable fs front :=
    .inl ⟨hfront.trans (List.dropLast_prefix _), Manifest.Layout.ne_of_prefix_dropLast hfront hne⟩
  refine fits.makes_createDirectories hpassable (habsolute.trans t.behind.isAbsolute) ?_
  rw [hcomponents, t.behind]
  exact Manifest.Layout.dropLast_append_map _ _

/-- Copying the tree makes no other changes, however it ends. -/
theorem Fits.makes_copyTree {top : Node} (fits : t.Fits fs) (hkept : Kept t.skip t.source [])
    (hsource : Lookup.find t.caller fs false t.source = .ok (t.origin, top)) :
    Makes t.Step t.caller fs (copyTree t.skip t.source t.destination) fun _ _ => True := by
  have hfind : Lookup.find t.caller fs false t.source = .ok (t.origin ++ [], top) := by
    rwa [List.append_nil]
  have hthere := Lookup.get?_of_find hfind
  have meets : t.Meets fs [] top :=
    ⟨hkept, hthere, fun r hr => Except.ok.inj (hr.symm.trans hfind)⟩
  unfold copyTree
  refine Makes.query.bind ?_
  rintro node fs - ⟨rfl, hnode⟩
  obtain rfl : node = top := by
    obtain ⟨l, hl⟩ := Lookup.lstat_eq_ok_iff.1 (Run.of_mapError_ok hnode)
    exact (Prod.mk.inj (Except.ok.inj (hl.symm.trans hfind))).2
  split
  · next hkind => exact meets.makes_copyDirectory fits (by simpa using hkind)
  · next hkind =>
      have hcopy {fs₁ : FileSystem} (h₁ : ReflTransGen t.Step fs fs₁) :
          Makes t.Step t.caller fs₁ (copyEntry t.source t.destination node) fun _ _ => True :=
        (fits.changes h₁).makes_copyEntry hkept (find_origin_of_changes h₁ hkept hfind)
          (by simpa using t.behind)
      refine Makes.bind (Q := fun _ _ => True) (Makes.mapError ?_) fun _ _ _ _ => .pure trivial
      cases hparent : t.destination.parent? with
      | none => exact hcopy .refl
      | some above => exact (fits.makes_createAbove hparent).bind fun _ fs₁ h₁ _ => hcopy h₁

end Transfer

end Storage

end RpmRelease
