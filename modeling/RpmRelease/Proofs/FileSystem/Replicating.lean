import RpmRelease.Proofs.FileSystem.Listed
import RpmRelease.Proofs.FileSystem.Mirroring

/-!
# What copying a tree leaves

A tree is copied to a path where nothing is, without links on the way, and outside of the tree unless it
is skipped there.  Then the copy has the nodes that are not to be skipped, and nothing else changes but
that directories are created on the way.  The tree is walked after they have been created.  So those of
them that are in the tree are copied with it, and those in the copy, to which two dots can lead, stay
there.
-/

set_option autoImplicit false

namespace RpmRelease

variable {caller : Caller} {fs fs' opened : FileSystem} {p : Path} {l k : Location} {node : Node}

/-! ## Paths that end with a slash -/

namespace Lookup

/-- A slash at the end of a path adds no name. -/
theorem behind_slash (hp : p.text ≠ "") : Behind p [] (p.join ⟨""⟩) :=
  (behind_self p).join_below hp hp (Path.below?_self hp)

/-- A path leads to what it leads to with a slash at its end. -/
theorem find_of_slash (hp : p.text ≠ "") (h : find caller fs true (p.join ⟨""⟩) = .ok (l, node)) :
    find caller fs true p = .ok (l, node) := by
  by_cases hlast : p.text.toList.getLast? = some '/'
  · have hself : p.join ⟨""⟩ = p := by
      simp [Path.join, Path.isAbsolute, hlast]
    rwa [hself] at h
  · obtain ⟨htext, hwalk⟩ := find_eq_ok_iff.1 h
    have hsteps : steps p.text = found p.text.toList := by
      rw [steps, ← found, if_neg (by simp [hlast])]
    have hfound : found (p.join ⟨""⟩).text.toList = found p.text.toList :=
      (found_join hp (by decide)).trans (List.append_nil _)
    refine find_eq_ok_iff.2 ⟨checkText_of_join hp (by decide) htext, ?_⟩
    rw [← start_eq (behind_slash hp).isAbsolute, hsteps, ← hfound]
    exact walk_found hwalk

/-- A slash at the end of a path leads to the same place. -/
theorem destined_slash (hp : p.text ≠ "") : destined caller (p.join ⟨""⟩) = destined caller p := by
  have hcourse : course (p.join ⟨""⟩) = course p :=
    (behind_slash hp).course_eq.trans (List.append_nil _)
  rw [destined, destined, hcourse, start_eq (behind_slash hp).isAbsolute]

end Lookup

open Lookup (Passes Plain)

namespace Storage

/-- Nothing is where a path leads, and no links are on the way. -/
structure Fresh (caller : Caller) (fs : FileSystem) (p : Path) : Prop where
  text : p.text ≠ ""
  plain : Plain caller fs p
  vacant : fs.get? (Lookup.destined caller p) = none

/-- What is copied of a tree: of a directory, what is not to be skipped, with all that is above it; of a
file or a link, all. -/
def Taken (skip : List Path) (source : Path) (top : Node) (names : List String) : Prop :=
  top.kind = .directory → Kept skip source names

/-- A tree has been copied. -/
structure Replicated (caller : Caller) (skip : List Path) (source destination : Path)
    (before after : FileSystem) (origin : Location) (top : Node) (n : Nat) : Prop where
  copied : ∀ names node, before.get? (origin ++ names) = some node → Taken skip source top names →
    ∃ copy, after.get? (Lookup.destined caller destination ++ names) = some copy ∧ copy.Like node
  /-- what is in the copy comes from the tree, or is a directory on the way -/
  only : ∀ names copy, after.get? (Lookup.destined caller destination ++ names) = some copy →
    (∃ node, before.get? (origin ++ names) = some node ∧ Taken skip source top names ∧
      copy.Like node) ∨
    copy = .directory Mode.directory caller.now ∧
      (Passes caller destination (Lookup.destined caller destination ++ names) ∨
        Taken skip source top names ∧ Passes caller destination (origin ++ names))
  /-- outside of the copy, directories have been created on the way -/
  elsewhere : ∀ l, ¬ Lookup.destined caller destination <+: l → after.get? l = before.get? l ∨
    before.get? l = none ∧ after.get? l = some (.directory Mode.directory caller.now) ∧
      Passes caller destination l
  count : (n : ℕ∞) = {names | ∃ node, before.get? (origin ++ names) = some node ∧
    node.kind ≠ .directory ∧ Taken skip source top names}.encard

variable {skip : List Path} {source destination : Path} {top : Node} {n : Nat} {listing : Listing}

/-- Below a path that leads to nothing there is nothing. -/
theorem Fresh.vacant_below (h : Fresh caller fs p) (wf : fs.WellFormed) (names : List String) :
    fs.get? (Lookup.destined caller p ++ names) = none := by
  by_contra hthere
  obtain ⟨node, hnode⟩ := Option.ne_none_iff_exists'.1 hthere
  cases names with
  | nil => simp [h.vacant] at hnode
  | cons name names =>
    obtain ⟨directory, hdirectory, -⟩ :=
      wf.directory_above hnode (List.prefix_append _ _) (by simp)
    simp [h.vacant] at hdirectory

/-- Only directories that are created on the way can be where nothing was. -/
theorem Fresh.made (h : Fresh caller fs p) (wf : fs.WellFormed) (paved : Paved caller p fs opened)
    {names : List String} (hnode : opened.get? (Lookup.destined caller p ++ names) = some node) :
    node = .directory Mode.directory caller.now ∧
      Passes caller p (Lookup.destined caller p ++ names) := by
  apply (paved.added _ _ hnode).resolve_left
  simp [h.vacant_below wf names]

/-- What has been copied after the directories on the way were created. -/
theorem replicated_of_paved (wf : fs.WellFormed) (fresh : Fresh caller fs destination)
    (paved : Paved caller destination fs opened)
    (hcopied : ∀ names node, opened.get? (k ++ names) = some node → Taken skip source top names →
      fs'.get? (Lookup.destined caller destination ++ names) = some (node.copied caller))
    (helsewhere : ∀ l, (∀ names, Taken skip source top names → (opened.get? (k ++ names)).isSome →
      l ≠ Lookup.destined caller destination ++ names) → fs'.get? l = opened.get? l)
    (hcount : (n : ℕ∞) = {names | ∃ node, opened.get? (k ++ names) = some node ∧
      node.kind ≠ .directory ∧ Taken skip source top names}.encard) :
    Replicated caller skip source destination fs fs' k top n where
  copied := by
    intro names node hnode htaken
    exact ⟨_, hcopied names node (paved.within _ _ hnode) htaken, node.copied_like caller⟩
  only := by
    intro names copy hcopy
    -- what stands in the copy was copied, or is a directory that was created for it
    by_cases hmem : Taken skip source top names ∧ (opened.get? (k ++ names)).isSome
    · obtain ⟨node, hnode⟩ := Option.isSome_iff_exists.1 hmem.2
      obtain rfl := Option.some.inj ((hcopied names node hnode hmem.1).symm.trans hcopy)
      rcases paved.added _ _ hnode with hbefore | ⟨rfl, hpasses⟩
      · exact .inl ⟨node, hbefore, hmem.1, node.copied_like caller⟩
      · exact .inr ⟨rfl, .inr ⟨hmem.1, hpasses⟩⟩
    · have hsame := helsewhere (Lookup.destined caller destination ++ names) (by
        intro other htaken hsome heq
        obtain rfl : names = other := List.append_cancel_left heq
        exact hmem ⟨htaken, hsome⟩)
      obtain ⟨hmade, hpasses⟩ := fresh.made wf paved (hsame.symm.trans hcopy)
      exact .inr ⟨hmade, .inl hpasses⟩
  elsewhere := by
    intro l houtside
    have hsame := helsewhere l (by
      rintro names - - rfl
      exact houtside (List.prefix_append _ _))
    rw [hsame]
    cases hnode : opened.get? l with
    | none =>
      cases hbefore : fs.get? l with
      | none => exact .inl rfl
      | some node => exact absurd (paved.within _ _ hbefore) (by simp [hnode])
    | some node =>
      rcases paved.added _ _ hnode with hbefore | ⟨rfl, hpasses⟩
      · exact .inl hbefore.symm
      · cases hbefore : fs.get? l with
        | none => exact .inr ⟨rfl, rfl, hpasses⟩
        | some node => exact .inl (hnode.symm.trans (paved.within _ _ hbefore))
  count := by
    rw [hcount]
    -- the directories that were created are no leaves, so both sides count the same
    congr 1
    ext names
    constructor
    · rintro ⟨node, hnode, hkind, htaken⟩
      exact ⟨node, paved.get?_of_kind hnode hkind, hkind, htaken⟩
    · rintro ⟨node, hnode, hkind, htaken⟩
      exact ⟨node, paved.within _ _ hnode, hkind, htaken⟩

/-! ## Files and links -/

/-- Copying what is no directory, to a directory that is created. -/
def copyLeaf (source destination : Path) (node : Node) : Storage Failure Nat := do
  mapError .file do
    match destination.parent? with
    | some above => createDirectories above
    | none => pure ()
    copyEntry source destination node
  return 1

/-- A tree that is a single file or link is copied by copying that. -/
theorem exec_copyTreeBy_leaf (hsource : Lookup.find caller fs false source = .ok (k, top))
    (hkind : top.kind ≠ .directory) :
    (copyTreeBy listing skip source destination).exec caller fs =
      (copyLeaf source destination top).exec caller fs := by
  rw [copyTreeBy, exec_bind, query, exec_ofExec, Lookup.lstat_eq_ok_iff.2 ⟨k, hsource⟩]
  simp only [Except.mapError, beq_iff_eq, if_neg hkind]
  rfl

/-- A node is copied to where a path leads without links on the way, when no file is there. -/
theorem of_copyEntry_plain (wf : fs.WellFormed)
    (hsource : Lookup.find caller fs false source = .ok (k, top)) (hkind : top.kind ≠ .directory)
    (hplain : Plain caller fs destination)
    (hdirectory : ∀ there, fs.get? (Lookup.destined caller destination) = some there →
      there.kind = .directory)
    (h : (copyEntry source destination top).exec caller fs = (.ok (), fs')) :
    fs' = fs.set (Lookup.destined caller destination) (top.copied caller) := by
  cases top with
  | directory => exact absurd rfl hkind
  | link target time =>
    obtain ⟨-, m, hvacant, rfl⟩ := of_copyLink_ok hsource h
    obtain ⟨l, name, slash, hentry, rfl, -⟩ := FileSystem.puts_of_vacantEntry wf hvacant
    rw [(hplain.entry_eq hentry).1]
    rfl
  | file mode time content =>
    rw [copyEntry_file] at h
    have hfollow := Lookup.find_follow (by simp [Node.kind]) hsource
    obtain ⟨hmay, m, last, hlocate, hvacant, hwritable⟩ := of_copyFile_ok_vacant hfollow (by
      intro place hplace there hthere
      rw [hplain.location_eq hplace] at hthere
      simp [hdirectory there hthere]) h
    have hexec := exec_copyFile hfollow hmay hlocate hvacant hwritable
    rw [← hplain.location_eq hlocate]
    exact congrArg Prod.snd (h.symm.trans hexec)

/-- Copying a file or a link to where nothing is replicates it. -/
theorem replicated_of_copyLeaf (wf : fs.WellFormed)
    (hsource : Lookup.find caller fs false source = .ok (k, top)) (hkind : top.kind ≠ .directory)
    (fresh : Fresh caller fs destination)
    (h : (copyLeaf source destination top).exec caller fs = (.ok n, fs')) :
    Replicated caller skip source destination fs fs' k top n := by
  obtain ⟨_, after, hcopy, h⟩ := of_exec_bind_ok h
  obtain ⟨rfl, rfl⟩ := Run.ok_inj h
  obtain ⟨opened, hopened, hcopy⟩ := exists_opened_of_copy (of_exec_mapError_ok hcopy)
  have paved : Paved caller destination fs opened := by
    rcases hopened with rfl | ⟨above, hparent, habove⟩
    · exact .refl wf
    · obtain ⟨hcomponents, habsolute⟩ := Path.components_parent? hparent
      have hpaved := paved_createDirectories wf fresh.plain habsolute
        (hcomponents ▸ List.dropLast_prefix _)
      rwa [habove] at hpaved
  have hfound := Lookup.find_within paved.within hsource
  have hset := of_copyEntry_plain paved.wellFormed hfound hkind (paved.plain fresh.plain)
    (fun there hthere => by
      rw [← List.append_nil (Lookup.destined caller destination)] at hthere
      rw [(fresh.made wf paved hthere).1]
      rfl) hcopy
  -- below a file or a link there is nothing
  have hnil (names : List String) (node : Node) (hnode : opened.get? (k ++ names) = some node) :
      names = [] ∧ node = top := by
    have htop := Lookup.get?_of_find hfound
    cases names with
    | nil =>
      rw [List.append_nil, htop] at hnode
      exact ⟨rfl, (Option.some.inj hnode).symm⟩
    | cons name names =>
      obtain ⟨directory, hdirectory, hdirectoryKind⟩ :=
        paved.wellFormed.directory_above hnode (List.prefix_append _ _) (by simp)
      obtain rfl := Option.some.inj (htop.symm.trans hdirectory)
      exact absurd hdirectoryKind hkind
  have htaken : Taken skip source top [] := fun h => absurd h hkind
  apply replicated_of_paved wf fresh paved
  · intro names node hnode _
    obtain ⟨rfl, rfl⟩ := hnil names node hnode
    rw [hset, List.append_nil, FileSystem.get?_set, if_pos rfl]
  · intro l hl
    rw [hset, FileSystem.get?_set, if_neg]
    rintro rfl
    exact hl [] htaken (by simp [Lookup.get?_of_find hfound]) (List.append_nil _).symm
  · have hleaves : {names | ∃ node, opened.get? (k ++ names) = some node ∧
        node.kind ≠ .directory ∧ Taken skip source top names} = {[]} := by
      ext names
      constructor
      · rintro ⟨node, hnode, -⟩
        exact (hnil names node hnode).1
      · rintro rfl
        exact ⟨top, by rw [List.append_nil, Lookup.get?_of_find hfound], hkind, htaken⟩
    rw [hleaves, Set.encard_singleton]
    rfl

/-! ## Directories -/

/-- A tree that is a directory is copied with what is in it, no deeper than a path can be long. -/
theorem exec_copyTreeBy_directory (hsource : Lookup.find caller fs false source = .ok (k, top))
    (hkind : top.kind = .directory) :
    (copyTreeBy listing skip source destination).exec caller fs =
      (copyDirectoryBy listing skip source destination Lookup.maxPath source).exec caller fs := by
  rw [copyTreeBy, exec_bind, query, exec_ofExec, Lookup.lstat_eq_ok_iff.2 ⟨k, hsource⟩]
  simp only [Except.mapError, beq_iff_eq, if_pos hkind]

/-- Creating the directories of a path to where nothing is, with a slash at its end. -/
theorem Fresh.created (fresh : Fresh caller fs destination) (wf : fs.WellFormed)
    (hcreate : (createDirectories (destination.join ⟨""⟩)).exec caller fs = (.ok (), opened)) :
    Paved caller destination fs opened ∧ Lookup.find caller opened true destination =
      .ok (Lookup.destined caller destination, .directory Mode.directory caller.now) := by
  have hslash := Lookup.behind_slash fresh.text
  have habove : (destination.join ⟨""⟩).components <+: destination.components := by
    rw [hslash, List.map_nil, List.append_nil]
  have paved := paved_createDirectories wf fresh.plain hslash.isAbsolute habove
  rw [hcreate] at paved
  obtain ⟨node, hfind, -⟩ := find_of_createDirectories_plain wf
    (fresh.plain.above hslash.isAbsolute habove) (hslash.text_ne_empty fresh.text) hcreate
  have hthere := Lookup.find_of_slash fresh.text hfind
  rw [Lookup.destined_slash fresh.text] at hthere
  have hnode := Lookup.get?_of_find hthere
  rw [← List.append_nil (Lookup.destined caller destination)] at hnode
  obtain ⟨rfl, -⟩ := fresh.made wf paved hnode
  exact ⟨paved, hthere⟩

/-- The walk does not come to a path where nothing is and that is not in the tree unless it is skipped
there. -/
theorem Fresh.apart (fresh : Fresh caller fs destination) (wf : fs.WellFormed)
    (htop : fs.get? k = some top)
    (houtside : ∀ names, Kept skip source names → Lookup.destined caller destination ≠ k ++ names)
    (names : List String) (hkept : Kept skip source names) :
    ¬ Lookup.destined caller destination <+: k ++ names := by
  intro hbelow
  rcases List.prefix_or_prefix_of_prefix hbelow (List.prefix_append k names) with ⟨rest, hk⟩ |
    ⟨more, hmore⟩
  · rw [← hk] at htop
    simp [fresh.vacant_below wf rest] at htop
  · rw [← hmore, List.prefix_append_right_inj] at hbelow
    exact houtside more (hkept.front hbelow) hmore.symm

/-- Of a directory that is to be skipped, nothing is copied. -/
theorem replicated_of_skipped (wf : fs.WellFormed) (fresh : Fresh caller fs destination)
    (hkind : top.kind = .directory) (hskip : skip.any source.same = true) :
    Replicated caller skip source destination fs fs k top 0 := by
  have hnone (names : List String) : ¬ Taken skip source top names := by
    intro htaken
    have hself : skip.any source.same = false := htaken hkind [] List.nil_prefix
    simp [hself] at hskip
  apply replicated_of_paved wf fresh (.refl wf)
  · intro names node _ htaken
    exact absurd htaken (hnone names)
  · intro l _
    rfl
  · simp [hnone]

/-- What has been copied of a directory once everything is that the walk meets. -/
theorem replicated_of_copied {t : Mirroring} (wf : fs.WellFormed)
    (fresh : Fresh t.caller fs t.destination) (paved : Paved t.caller t.destination fs t.start)
    (hplace : t.place = Lookup.destined t.caller t.destination) (hkind : top.kind = .directory)
    (hcopied : t.Copied (t.part []) fs') (hcount : (n : ℕ∞) = (t.part [] ∩ t.leaves).encard) :
    Replicated t.caller t.skip t.source t.destination fs fs' t.origin top n := by
  apply replicated_of_paved wf fresh paved
  · intro names node hnode htaken
    obtain ⟨original, horiginal, hcopy⟩ :=
      hcopied.copied names ⟨List.nil_prefix, htaken hkind, by simp [hnode]⟩
    obtain rfl : original = node := Option.some.inj (horiginal.symm.trans hnode)
    rw [← hplace, hcopy]
  · intro l hl
    apply hcopied.elsewhere
    rintro names ⟨-, hkept, hsome⟩
    rw [hplace]
    exact hl names (fun _ => hkept) hsome
  · rw [hcount]
    congr 1
    ext names
    constructor
    · rintro ⟨⟨-, hkept, -⟩, node, hnode, hleaf⟩
      exact ⟨node, hnode, hleaf, fun _ => hkept⟩
    · rintro ⟨node, hnode, hleaf, htaken⟩
      exact ⟨⟨List.nil_prefix, htaken hkind, by simp [hnode]⟩, node, hnode, hleaf⟩

/-- Copying a directory to where nothing is, in whatever order directories are listed. -/
theorem replicated_of_copyDirectoryBy (wf : fs.WellFormed) (hlisting : listing.Permutes)
    (hsource : Lookup.find caller fs false source = .ok (k, top)) (hkind : top.kind = .directory)
    (fresh : Fresh caller fs destination)
    (houtside : ∀ names, Kept skip source names → Lookup.destined caller destination ≠ k ++ names)
    (h : (copyDirectoryBy listing skip source destination Lookup.maxPath source).exec caller fs =
      (.ok n, fs')) :
    (∀ listing' : Listing, listing'.Permutes →
      (copyDirectoryBy listing' skip source destination Lookup.maxPath source).exec caller fs =
        (.ok n, fs')) ∧
      Replicated caller skip source destination fs fs' k top n := by
  obtain ⟨steps, hsteps⟩ : ∃ steps, Lookup.maxPath = steps + 1 := ⟨4095, rfl⟩
  have hnamed := (Lookup.of_checkText_ok (Lookup.find_eq_ok_iff.1 hsource).1).1
  rw [hsteps] at h ⊢
  cases hskip : skip.any source.same with
  | true =>
    rw [exec_copyDirectoryBy_skipped hskip] at h
    obtain ⟨rfl, rfl⟩ := Run.ok_inj h
    exact ⟨fun _ _ => exec_copyDirectoryBy_skipped hskip, replicated_of_skipped wf fresh hkind hskip⟩
  | false =>
    obtain ⟨target, l, node, opened, htarget, hfind, -, hmay, hcreate, hlisted⟩ :=
      of_copyDirectoryBy_ok hskip h
    rw [placeBelow_self hnamed] at htarget
    obtain ⟨rfl, -⟩ := Run.ok_inj htarget
    have hfollow := Lookup.find_follow (by simp [hkind]) hsource
    obtain ⟨rfl, rfl⟩ : l = k ∧ node = top := by simpa using hfind.symm.trans hfollow
    obtain ⟨paved, hleads⟩ := fresh.created wf hcreate
    let t : Mirroring :=
      { caller, skip, source, destination, start := opened, origin := l
        place := Lookup.destined caller destination
        wellFormed := paved.wellFormed
        named := hnamed
        leads := hleads
        bare := fun names node hnode => (fresh.made wf paved hnode).1
        apart := fresh.apart wf (Lookup.get?_of_find hsource) houtside }
    obtain ⟨hcount, hcopied, hall⟩ := t.copied_of_copyListed hlisting
      (Lookup.find_within paved.within hfollow) hkind hskip hsteps hlisted
    refine ⟨fun listing' hlisting' => ?_, replicated_of_copied wf fresh paved rfl hkind hcopied hcount⟩
    rw [exec_copyDirectoryBy hskip (placeBelow_self hnamed) hsource hkind hmay hcreate]
    exact hall listing' hlisting'

/-- A tree that is copied to where nothing is has a copy without what is to be skipped, and the order in
which directories are listed does not matter. -/
theorem copyTree_replicates (wf : fs.WellFormed) (hlisting : listing.Permutes)
    (hsource : Lookup.find caller fs false source = .ok (k, top))
    (fresh : Fresh caller fs destination)
    (houtside : ∀ names, Kept skip source names → Lookup.destined caller destination ≠ k ++ names)
    (h : (copyTreeBy listing skip source destination).exec caller fs = (.ok n, fs')) :
    (copyTree skip source destination).exec caller fs = (.ok n, fs') ∧
      (∀ listing' : Listing, listing'.Permutes →
        (copyTreeBy listing' skip source destination).exec caller fs = (.ok n, fs')) ∧
      Replicated caller skip source destination fs fs' k top n := by
  obtain ⟨hall, hreplicated⟩ : (∀ listing' : Listing, listing'.Permutes →
      (copyTreeBy listing' skip source destination).exec caller fs = (.ok n, fs')) ∧
      Replicated caller skip source destination fs fs' k top n := by
    by_cases hkind : top.kind = .directory
    · rw [exec_copyTreeBy_directory hsource hkind] at h
      obtain ⟨hall, hreplicated⟩ :=
        replicated_of_copyDirectoryBy wf hlisting hsource hkind fresh houtside h
      refine ⟨fun listing' hlisting' => ?_, hreplicated⟩
      rw [exec_copyTreeBy_directory hsource hkind]
      exact hall listing' hlisting'
    · rw [exec_copyTreeBy_leaf hsource hkind] at h
      refine ⟨fun listing' _ => ?_, replicated_of_copyLeaf wf hsource hkind fresh h⟩
      rw [exec_copyTreeBy_leaf hsource hkind, h]
  exact ⟨copyTreeBy_children ▸ hall _ permutes_children, hall, hreplicated⟩

/-! ## Copies inside the tree -/

/-- A directory with two files, a link and a directory of outputs. -/
def nestedTree : FileSystem :=
  .ofNodes [
    (["s", "d", "b"], .file 0o755#12 5 [2]),
    (["s", "a"], .file Mode.file 7 [1]),
    (["s", "d"], .directory Mode.directory 0),
    (["s", "l"], .link "a" 3),
    (["s", "out"], .directory Mode.directory 0),
    (["s"], .directory Mode.directory 0)]

/-- The nested tree is replicated in both orders of its entries, without what is to be skipped. -/
theorem copyTree_replicates_nested : ∃ fs',
    (copyTree [⟨"/s/out"⟩] ⟨"/s"⟩ ⟨"/s/out/x/copy"⟩).exec .superuserAtRoot nestedTree = (.ok 3, fs') ∧
    (copyTreeBy (fun fs l => (fs.children l).reverse) [⟨"/s/out"⟩] ⟨"/s"⟩ ⟨"/s/out/x/copy"⟩).exec
      .superuserAtRoot nestedTree = (.ok 3, fs') ∧
    (∃ copy, fs'.get? ["s", "out", "x", "copy", "d", "b"] = some copy ∧
      copy.Like (.file 0o755#12 5 [2])) ∧
    fs'.get? ["s", "l"] = some (.link "a" 3) := by
  have hrun : ((copyTree [⟨"/s/out"⟩] ⟨"/s"⟩ ⟨"/s/out/x/copy"⟩).exec .superuserAtRoot
      nestedTree).1 = .ok 3 := by
    decide +kernel
  have hplace : Lookup.destined .superuserAtRoot ⟨"/s/out/x/copy"⟩ = ["s", "out", "x", "copy"] := by
    decide +kernel
  have hsource : Lookup.find .superuserAtRoot nestedTree false ⟨"/s"⟩ =
      .ok (["s"], .directory Mode.directory 0) := by
    decide +kernel
  have wf : nestedTree.WellFormed := FileSystem.wellFormed_ofNodes (by decide)
  have fresh : Fresh .superuserAtRoot nestedTree ⟨"/s/out/x/copy"⟩ :=
    ⟨by decide, by decide +kernel, by decide +kernel⟩
  have houtside (names : List String) (hkept : Kept [⟨"/s/out"⟩] ⟨"/s"⟩ names) :
      Lookup.destined .superuserAtRoot ⟨"/s/out/x/copy"⟩ ≠ ["s"] ++ names := by
    rw [hplace]
    intro heq
    obtain rfl : names = ["out", "x", "copy"] := (List.cons.inj heq).2.symm
    exact absurd hkept (by decide +kernel)
  have hexec := exec_eq_of_outcome hrun
  rw [← copyTreeBy_children] at hexec
  obtain ⟨hcopy, hall, hreplicated⟩ :=
    copyTree_replicates wf permutes_children hsource fresh houtside hexec
  refine ⟨_, hcopy, hall _ fun fs l => List.reverse_perm _, ?_, ?_⟩
  · have hcopied := hreplicated.copied ["d", "b"] (.file 0o755#12 5 [2]) (by decide +kernel) fun _ => by
      decide +kernel
    rw [hplace] at hcopied
    exact hcopied
  · rcases hreplicated.elsewhere ["s", "l"] (by decide +kernel) with hsame | ⟨hvacant, -⟩
    · rw [hsame]
      decide +kernel
    · exact absurd hvacant (by decide +kernel)

/-- Two directories with a file in each. -/
def pairTree : FileSystem :=
  .ofNodes [
    (["d", "b"], .file Mode.file 0 [2]),
    (["s", "a"], .file Mode.file 0 [1]),
    (["d"], .directory Mode.directory 0),
    (["s"], .directory Mode.directory 0)]

/-- The way to a copy shows in it.  A directory on the way that has been created in the tree is copied,
and one that has been created in the copy stays there.  Two dots can lead to a directory that is there,
although the path leads nowhere, and the empty path stands for the directory of the caller. -/
theorem copyTree_copies_way :
    (Fresh .superuserAtRoot pairTree ⟨"/s/o/x/c"⟩ ∧
      Lookup.destined .superuserAtRoot ⟨"/s/o/x/c"⟩ = ["s"] ++ ["o", "x", "c"] ∧
      ¬ Kept [⟨"/s/o/x"⟩] ⟨"/s"⟩ ["o", "x", "c"] ∧ pairTree.get? ["s", "o"] = none ∧
      ∃ fs', (copyTree [⟨"/s/o/x"⟩] ⟨"/s"⟩ ⟨"/s/o/x/c"⟩).exec .superuserAtRoot pairTree =
        (.ok 1, fs') ∧ fs'.get? ["s", "o", "x", "c", "o"] = some (.directory Mode.directory 0)) ∧
    (Fresh .superuserAtRoot pairTree ⟨"/c/e/.."⟩ ∧ pairTree.get? ["s", "e"] = none ∧
      ∃ fs', (copyTree [] ⟨"/s"⟩ ⟨"/c/e/.."⟩).exec .superuserAtRoot pairTree = (.ok 1, fs') ∧
        fs'.get? ["c", "e"] = some (.directory Mode.directory 0)) ∧
    (pairTree.lstat .superuserAtRoot ⟨"/n/../d"⟩ = .error (.system .noEntry) ∧
      Plain .superuserAtRoot pairTree ⟨"/n/../d"⟩ ∧ pairTree.get? ["s", "b"] = none ∧
      ∃ fs', (copyTree [] ⟨"/s"⟩ ⟨"/n/../d"⟩).exec .superuserAtRoot pairTree = (.ok 1, fs') ∧
        fs'.get? ["d", "b"] = some (.file Mode.file 0 [2])) ∧
    pairTree.lstat .superuserAtRoot ⟨""⟩ = .error (.system .noEntry) ∧
      ∃ fs', (copyTree [] ⟨"/s"⟩ ⟨""⟩).exec .superuserAtRoot pairTree = (.ok 1, fs') ∧
        fs'.lstat .superuserAtRoot ⟨""⟩ = .error (.system .noEntry) ∧
        fs'.get? ["a"] = some (.file Mode.file 0 [1]) := by
  -- what each copy counts is computed first; it leaves what it leaves
  have hrun {skip : List Path} {source destination : Path} {n : Nat}
      (h : ((copyTree skip source destination).exec .superuserAtRoot pairTree).1 = .ok n)
      {P : FileSystem → Prop}
      (hleft : P ((copyTree skip source destination).exec .superuserAtRoot pairTree).2) :
      ∃ fs', (copyTree skip source destination).exec .superuserAtRoot pairTree = (.ok n, fs') ∧
        P fs' :=
    ⟨_, exec_eq_of_outcome h, hleft⟩
  refine ⟨⟨⟨?_, ?_, ?_⟩, ?_, ?_, ?_, hrun ?_ ?_⟩, ⟨⟨?_, ?_, ?_⟩, ?_, hrun ?_ ?_⟩,
    ⟨?_, ?_, ?_, hrun ?_ ?_⟩, ?_, hrun ?_ ⟨?_, ?_⟩⟩ <;> decide +kernel

end Storage

end RpmRelease
