import RpmRelease.Install
import RpmRelease.Proofs.FileSystem.Cutting
import RpmRelease.Proofs.FileSystem.Listed
import RpmRelease.Proofs.Glob.Thinning
import RpmRelease.Proofs.Release

/-!
# What cleaning removes

Cleaning goes through the patterns in turn, and removes what each of them stands for and leads to a file.
Every removal thins the file system, and what was removed may have been in the way of patterns and
links that are looked at later: a link to a removed file is left alone.

What is missing afterwards are the entries of the paths that are listed, each of them once, and no
directory is among them.  Since a pattern stands for nothing new in a thinner file system, cleaning
again finds nothing to remove.
-/

set_option autoImplicit false

namespace RpmRelease

variable {caller : Caller} {fs fs' : FileSystem}

namespace FileSystem

/-- A file system without the nodes at some locations. -/
def without (fs : FileSystem) (places : List Location) : FileSystem :=
  fs.keep fun l => !places.contains l

/-- Nothing stands at the places that are left out, and all else stands where it stood. -/
theorem get?_without (fs : FileSystem) (places : List Location) (l : Location) :
    (fs.without places).get? l = if l ∈ places then none else fs.get? l := by
  rw [without, get?_keep]
  by_cases hl : l ∈ places <;> simp [hl]

/-- Leaving out no places leaves everything. -/
theorem without_nil (fs : FileSystem) : fs.without [] = fs :=
  FileSystem.ext fun l => by simp [get?_without]

/-- Places are left out together or one after the other. -/
theorem without_append (fs : FileSystem) (places more : List Location) :
    fs.without (places ++ more) = (fs.without places).without more := by
  refine FileSystem.ext fun l => ?_
  simp only [get?_without, List.mem_append]
  by_cases hl : l ∈ places <;> by_cases hmore : l ∈ more <;> simp [hl, hmore]

/-- Leaving out one place more is erasing it. -/
theorem without_cons (fs : FileSystem) (place : Location) (places : List Location) :
    fs.without (place :: places) = (fs.erase place).without places := by
  refine FileSystem.ext fun l => ?_
  simp only [get?_without, get?_erase, List.mem_cons]
  by_cases hl : l = place
  · simp [hl]
  · simp [hl, Ne.symm hl]

end FileSystem

namespace Project

open FileSystem (Thinned)

/-! ## Single removals -/

/-- A path that was removed, and the location of its entry. -/
structure Removal where
  path : Path
  place : Location

/-- The locations of removed entries. -/
def places (removals : List Removal) : List Location :=
  removals.map Removal.place

/-- The entry of a path that leads to a file is removed: the file, or a link to it.  After that no
spelling of the path leads to a file, whatever else is removed. -/
structure Removes (caller : Caller) (fs : FileSystem) (x : Removal) : Prop where
  isFile : fs.isFile caller x.path = true
  entry : ∃ node, Lookup.find caller fs false x.path = .ok (x.place, node) ∧ node.kind ≠ .directory
  thinned : Thinned caller (fs.erase x.place) fs
  gone : ∀ fs' q, Thinned caller fs' (fs.erase x.place) → x.path.same q = true →
    fs'.isFile caller q = false

/-- A path to a file that was removed is a removal: the entry of the path is erased. -/
theorem removes_of_removeFile {p : Path} (hfile : fs.isFile caller p = true)
    (h : fs.removeFile caller p = .ok fs') :
    ∃ place, Removes caller fs ⟨p, place⟩ ∧ fs' = fs.erase place := by
  obtain ⟨l, text, node, hentry, henters, hfind, rfl⟩ := FileSystem.exists_of_removeFile hfile h
  obtain ⟨there, hthere, hkind⟩ := henters.exists_node
  obtain rfl := Option.some.inj ((Lookup.get?_of_find hfind).symm.trans hthere)
  have hthinned := FileSystem.thinned_erase henters
  refine ⟨l ++ [text], ⟨hfile, ⟨node, hfind, hkind⟩, hthinned, fun fs' q hfewer hsame => ?_⟩, rfl⟩
  refine (hfewer.trans hthinned).isFile_eq_false hentry ?_ hsame
  by_contra hnode
  obtain ⟨other, hother⟩ := Option.ne_none_iff_exists'.1 hnode
  simpa [FileSystem.get?_erase] using hfewer.within _ _ hother

/-- Removals one after the other. -/
inductive Removals (caller : Caller) : FileSystem → List Removal → FileSystem → Prop
  | nil {fs : FileSystem} : Removals caller fs [] fs
  | cons {fs fs' : FileSystem} {x : Removal} {rest : List Removal} (hfirst : Removes caller fs x)
    (hrest : Removals caller (fs.erase x.place) rest fs') : Removals caller fs (x :: rest) fs'

namespace Removals

variable {middle : FileSystem} {removals first more : List Removal}

/-- Removals may go on after removals. -/
theorem append (h : Removals caller fs first middle) (hmore : Removals caller middle more fs') :
    Removals caller fs (first ++ more) fs' := by
  induction h with
  | nil => exact hmore
  | cons hfirst _ ih => exact .cons hfirst (ih hmore)

/-- Removals in a row may be parted. -/
theorem of_append (h : Removals caller fs (first ++ more) fs') :
    ∃ middle, Removals caller fs first middle ∧ Removals caller middle more fs' := by
  induction first generalizing fs with
  | nil => exact ⟨fs, .nil, h⟩
  | cons x first ih =>
    cases h with
    | cons hx hrest =>
      obtain ⟨middle, hfirst, hmore⟩ := ih hrest
      exact ⟨middle, .cons hx hfirst, hmore⟩

/-- Removals only take away files and links to them. -/
theorem thinned (h : Removals caller fs removals fs') : Thinned caller fs' fs := by
  induction h with
  | nil => exact .refl caller _
  | cons hfirst _ ih => exact ih.trans hfirst.thinned

/-- Removals leave out their places and nothing else. -/
theorem eq_without (h : Removals caller fs removals fs') : fs' = fs.without (places removals) := by
  induction h with
  | nil => exact (FileSystem.without_nil _).symm
  | cons _ _ ih => rw [ih, places, places, List.map_cons, FileSystem.without_cons]

/-- Each removal is made among what the removals before it have left. -/
theorem removes {before later : List Removal} {x : Removal}
    (h : Removals caller fs (before ++ x :: later) fs') :
    Removes caller (fs.without (places before)) x := by
  obtain ⟨middle, hbefore, hrest⟩ := h.of_append
  rw [← hbefore.eq_without]
  cases hrest with
  | cons hx _ => exact hx

/-- Each path that was removed led to a file when it was its turn. -/
theorem exists_isFile (h : Removals caller fs removals fs') {x : Removal} (hx : x ∈ removals) :
    ∃ present, Thinned caller present fs ∧ present.isFile caller x.path = true := by
  obtain ⟨before, later, rfl⟩ := List.append_of_mem hx
  obtain ⟨present, hbefore, hrest⟩ := h.of_append
  cases hrest with
  | cons hx _ => exact ⟨present, hbefore.thinned, hx.isFile⟩

/-- No path is removed twice, in whatever spelling. -/
theorem pairwise (h : Removals caller fs removals fs') :
    (removals.map Removal.path).Pairwise fun p q => p.same q = false := by
  induction h with
  | nil => exact .nil
  | cons hfirst hrest ih =>
    refine List.pairwise_cons.2 ⟨List.forall_mem_map.2 fun y hy => ?_, ih⟩
    obtain ⟨present, hthinned, hfile⟩ := hrest.exists_isFile hy
    by_contra hsame
    simp [hfirst.gone present y.path hthinned (by simpa using hsame)] at hfile

/-- What is removed is no directory. -/
theorem get?_directory (h : Removals caller fs removals fs') {l : Location} {node : Node}
    (hnode : fs.get? l = some node) (hkind : node.kind = .directory) : fs'.get? l = some node := by
  induction h with
  | nil => exact hnode
  | cons hfirst _ ih =>
    refine ih ?_
    rw [FileSystem.get?_erase, if_neg, hnode]
    rintro rfl
    obtain ⟨leaf, hfind, hleaf⟩ := hfirst.entry
    obtain rfl := Option.some.inj ((Lookup.get?_of_find hfind).symm.trans hnode)
    exact hleaf hkind

end Removals

/-! ## The matches of a pattern -/

/-- Removing one match, which is listed when it was removed. -/
def cleanItem (path : Path) : Storage Failure (List Path) := do
  return if ← cleanMatch path then [path] else []

/-- Cleaning by a pattern goes through the paths that it stands for, in order. -/
theorem cleanPattern_eq (r : Release) (pattern : String) : cleanPattern r pattern = (do
    let found ← Storage.expandPattern r.root pattern
    Storage.collect cleanItem found) := rfl

/-- Cleaning goes through the patterns in order. -/
theorem clean_eq (r : Release) :
    clean r = Storage.collect (cleanPattern r) r.configuration.clean.patterns := rfl

/-- A match is removed if it leads to a file, and left alone otherwise. -/
theorem of_cleanItem_ok {p : Path} {listed : List Path}
    (h : (cleanItem p).exec caller fs = (.ok listed, fs')) :
    (∃ place, Removes caller fs ⟨p, place⟩ ∧ fs' = fs.erase place ∧ listed = [p]) ∨
      (fs.isFile caller p = false ∧ fs' = fs ∧ listed = []) := by
  obtain ⟨_, _, h, hlisted⟩ := Storage.of_exec_bind_ok h
  obtain ⟨file, _, hquery, h⟩ := Storage.of_exec_bind_ok h
  obtain ⟨hfile, rfl⟩ := Storage.of_exec_query_ok hquery
  obtain rfl := Except.ok.inj hfile
  cases hfile : fs.isFile caller p with
  | true =>
    simp only [hfile, if_true] at h
    obtain ⟨_, _, hremove, h⟩ := Storage.of_exec_bind_ok h
    obtain ⟨rfl, rfl⟩ := Run.ok_inj h
    obtain ⟨rfl, rfl⟩ := Run.ok_inj hlisted
    obtain ⟨place, hremoves, heq⟩ := removes_of_removeFile hfile
      (Storage.of_exec_change_ok (Storage.of_exec_mapError_ok hremove))
    exact .inl ⟨place, hremoves, heq, rfl⟩
  | false =>
    simp only [hfile] at h
    obtain ⟨rfl, rfl⟩ := Run.ok_inj h
    obtain ⟨rfl, rfl⟩ := Run.ok_inj hlisted
    exact .inr ⟨rfl, rfl, rfl⟩

/-- A path that leads to no file is left alone. -/
theorem exec_cleanItem_nothing {p : Path} (h : fs.isFile caller p = false) :
    (cleanItem p).exec caller fs = (.ok [], fs) := by
  have hmatch : (cleanMatch p).exec caller fs = (.ok false, fs) := by
    rw [cleanMatch, Storage.exec_bind, Storage.isFile, Storage.query, Storage.exec_ofExec, h]
    rfl
  rw [cleanItem, Storage.exec_bind, hmatch]
  rfl

/-- Going through matches removes some of them, and leaves none that leads to a file. -/
theorem exists_removals {found listed : List Path}
    (h : (Storage.collect cleanItem found).exec caller fs = (.ok listed, fs')) :
    ∃ removals, Removals caller fs removals fs' ∧ removals.map Removal.path = listed ∧
      (∀ x ∈ removals, x.path ∈ found) ∧ ∀ p ∈ found, fs'.isFile caller p = false := by
  induction found generalizing fs listed with
  | nil =>
    obtain ⟨rfl, rfl⟩ := Run.ok_inj h
    exact ⟨[], .nil, rfl, by simp, by simp⟩
  | cons p found ih =>
    obtain ⟨first, more, middle, hfirst, hmore, rfl⟩ := Storage.of_exec_collect_cons_ok h
    obtain ⟨removals, hremovals, rfl, hfound, hleft⟩ := ih hmore
    have hlater : ∀ x ∈ removals, x.path ∈ p :: found := fun x hx =>
      List.mem_cons_of_mem p (hfound x hx)
    rcases of_cleanItem_ok hfirst with ⟨place, hremoves, rfl, rfl⟩ | ⟨hfile, rfl, rfl⟩
    · have hgone := hremoves.gone fs' p hremovals.thinned (by simp [Path.same])
      exact ⟨⟨p, place⟩ :: removals, .cons hremoves hremovals, rfl,
        List.forall_mem_cons.2 ⟨List.mem_cons_self, hlater⟩, List.forall_mem_cons.2 ⟨hgone, hleft⟩⟩
    · have hgone := hremovals.thinned.not_isFile hfile
      exact ⟨removals, hremovals, rfl, hlater, List.forall_mem_cons.2 ⟨hgone, hleft⟩⟩

/-! ## All patterns -/

/-- A pattern stands for some paths, and none of them leads to a file. -/
def Cleared (caller : Caller) (r : Release) (fs : FileSystem) (pattern : String) : Prop :=
  ∃ found, Glob.expand caller fs r.root pattern = .ok found ∧
    ∀ p ∈ found, fs.isFile caller p = false

variable {r : Release} {pattern : String}

/-- Nothing that is removed later makes a pattern stand for a file again. -/
theorem Cleared.thinned {found : List Path} (h : Thinned caller fs' fs)
    (hfound : Glob.expand caller fs r.root pattern = .ok found)
    (hcleared : ∀ p ∈ found, fs'.isFile caller p = false) : Cleared caller r fs' pattern := by
  obtain ⟨fewer, hfewer, hsubset⟩ := Glob.fewer_expand h r.root pattern found hfound
  exact ⟨fewer, hfewer, fun p hp => hcleared p (hsubset hp)⟩

/-- A pattern that stands for no file changes nothing. -/
theorem exec_cleanPattern_cleared (h : Cleared caller r fs pattern) :
    (cleanPattern r pattern).exec caller fs = (.ok [], fs) := by
  obtain ⟨found, hfound, hcleared⟩ := h
  have hexpand : (Storage.expandPattern r.root pattern).exec caller fs = (.ok found, fs) := by
    rw [Storage.expandPattern, Storage.query, Storage.exec_ofExec, hfound]
    rfl
  rw [cleanPattern_eq, Storage.exec_bind, hexpand]
  exact Storage.exec_collect_nothing fun p hp => exec_cleanItem_nothing (hcleared p hp)

/-- Rounds of removals, one for each pattern, that leave no file which its pattern stood for. -/
inductive Rounds (caller : Caller) (r : Release) :
    List String → FileSystem → List Removal → FileSystem → Prop
  | nil {fs : FileSystem} : Rounds caller r [] fs [] fs
  | cons {pattern : String} {patterns : List String} {fs middle fs' : FileSystem}
    {first more : List Removal} {found : List Path}
    (hfound : Glob.expand caller fs r.root pattern = .ok found)
    (hfirst : Removals caller fs first middle) (hmem : ∀ x ∈ first, x.path ∈ found)
    (hleft : ∀ p ∈ found, middle.isFile caller p = false)
    (hmore : Rounds caller r patterns middle more fs') :
    Rounds caller r (pattern :: patterns) fs (first ++ more) fs'

/-- The paths that cleaning lists are those of removals, in rounds of one pattern after the other. -/
theorem exists_rounds {patterns : List String} {listed : List Path}
    (h : (Storage.collect (cleanPattern r) patterns).exec caller fs = (.ok listed, fs')) :
    ∃ removals, Rounds caller r patterns fs removals fs' ∧
      removals.map Removal.path = listed := by
  induction patterns generalizing fs listed with
  | nil =>
    obtain ⟨rfl, rfl⟩ := Run.ok_inj h
    exact ⟨[], .nil, rfl⟩
  | cons pattern patterns ih =>
    obtain ⟨first, more, middle, hfirst, hmore, rfl⟩ := Storage.of_exec_collect_cons_ok h
    obtain ⟨removals, hrounds, rfl⟩ := ih hmore
    rw [cleanPattern_eq] at hfirst
    obtain ⟨found, _, hexpand, hfirst⟩ := Storage.of_exec_bind_ok hfirst
    obtain ⟨hfound, rfl⟩ := Storage.of_exec_query_ok hexpand
    obtain ⟨own, hown, rfl, hmem, hleft⟩ := exists_removals hfirst
    exact ⟨own ++ removals, .cons (Run.of_mapError_ok hfound) hown hmem hleft hrounds,
      List.map_append⟩

namespace Rounds

variable {patterns : List String} {removals : List Removal}

/-- Rounds of removals are removals. -/
theorem toRemovals (h : Rounds caller r patterns fs removals fs') : Removals caller fs removals fs' := by
  induction h with
  | nil => exact .nil
  | cons _ hfirst _ _ _ ih => exact hfirst.append ih

/-- A pattern stood for each path that was removed, when some of the removals before it were made. -/
theorem matched (h : Rounds caller r patterns fs removals fs') {before later : List Removal}
    {x : Removal} (heq : removals = before ++ x :: later) :
    ∃ pattern ∈ patterns, ∃ earlier, earlier <+: before ∧ ∃ found,
      Glob.expand caller (fs.without (places earlier)) r.root pattern = .ok found ∧
        x.path ∈ found := by
  induction h generalizing before with
  | nil => simp at heq
  | @cons pattern patterns fs middle _ first more found hfound hfirst hmem _ _ ih =>
    by_cases hx : before.length < first.length
    · have hown : x ∈ first := by
        have hget : (first ++ more)[before.length]? = some x := by rw [heq]; simp
        rw [List.getElem?_append_left hx] at hget
        exact List.mem_of_getElem? hget
      exact ⟨pattern, List.mem_cons_self, [], List.nil_prefix, found,
        by rwa [places, List.map_nil, FileSystem.without_nil], hmem x hown⟩
    · obtain ⟨rest, rfl⟩ : first <+: before :=
        List.prefix_of_prefix_length_le ⟨more, heq⟩ (List.prefix_append before _) (Nat.le_of_not_lt hx)
      rw [List.append_assoc] at heq
      obtain ⟨other, hother, earlier, hearlier, found', hfound', hpath⟩ :=
        ih (List.append_cancel_left heq)
      refine ⟨other, List.mem_cons_of_mem pattern hother, first ++ earlier,
        (List.prefix_append_right_inj first).2 hearlier, found', ?_, hpath⟩
      rwa [places, List.map_append, FileSystem.without_append, ← places, ← places,
        ← hfirst.eq_without]

/-- In the end no pattern stands for a file. -/
theorem cleared (h : Rounds caller r patterns fs removals fs') :
    ∀ pattern ∈ patterns, Cleared caller r fs' pattern := by
  induction h with
  | nil => simp
  | cons hfound hfirst _ hleft hmore ih =>
    have hlater := hmore.toRemovals.thinned
    exact List.forall_mem_cons.2 ⟨.thinned (hlater.trans hfirst.thinned) hfound fun p hp =>
      hlater.not_isFile (hleft p hp), ih⟩

end Rounds

/-- What has become of a file system where paths were removed. -/
structure Cleaned (caller : Caller) (r : Release) (fs : FileSystem) (removals : List Removal)
    (fs' : FileSystem) : Prop where
  /-- just the entries of the removed paths are missing -/
  files : fs' = fs.without (places removals)
  /-- each path led to a file when it was removed, and its own entry was no directory -/
  entries : ∀ before x later, removals = before ++ x :: later →
    (fs.without (places before)).isFile caller x.path = true ∧
      ∃ node, Lookup.find caller (fs.without (places before)) false x.path = .ok (x.place, node) ∧
        node.kind ≠ .directory
  /-- a pattern stood for each path, when some of the removals before it were made -/
  matched : ∀ before x later, removals = before ++ x :: later →
    ∃ pattern ∈ r.configuration.clean.patterns, ∃ earlier, earlier <+: before ∧ ∃ found,
      Glob.expand caller (fs.without (places earlier)) r.root pattern = .ok found ∧ x.path ∈ found
  /-- every directory is still there -/
  directories : ∀ l node, fs.get? l = some node → node.kind = .directory → fs'.get? l = some node
  /-- no path was removed in two spellings -/
  distinct : (removals.map Removal.path).Pairwise fun p q => p.same q = false

/-- Cleaning removes the entries of the paths that it lists and nothing else, and there is nothing to
remove for cleaning again. -/
theorem exists_cleaned {removed : List Path} (h : (clean r).exec caller fs = (.ok removed, fs')) :
    (∃ removals, removals.map Removal.path = removed ∧ Cleaned caller r fs removals fs') ∧
      (clean r).exec caller fs' = (.ok [], fs') := by
  rw [clean_eq] at h ⊢
  obtain ⟨removals, hrounds, hpaths⟩ := exists_rounds h
  have hremovals := hrounds.toRemovals
  refine ⟨⟨removals, hpaths, ?_⟩, Storage.exec_collect_nothing fun pattern hpattern =>
    exec_cleanPattern_cleared (hrounds.cleared pattern hpattern)⟩
  exact {
    files := hremovals.eq_without
    entries := fun before x later heq =>
      have hx := (heq ▸ hremovals).removes
      ⟨hx.isFile, hx.entry⟩
    matched := fun before x later heq => hrounds.matched heq
    directories := fun l node => hremovals.get?_directory
    distinct := hremovals.pairwise }

/-- A release that is cleaned of bytecode. -/
def bytecodeRelease : Release :=
  { Release.first with configuration := { clean := { patterns := ["a*", "b.pyc", "*.pyc", "d"] } } }

/-- Two links among files: one leads to a file that is kept, the other one to a file that is removed
first. -/
def bytecodeTree : FileSystem :=
  .ofNodes [
    (["r", "a.pyc"], .file Mode.file 0 [1]),
    (["r", "b.pyc"], .link "d/k" 0),
    (["r", "c.pyc"], .link "a.pyc" 0),
    (["r", "d", "k"], .file Mode.file 0 [2]),
    (["r", "d"], .directory Mode.directory 0),
    (["r"], .directory Mode.directory 0)]

/-- The file and the link to the other file are removed.  The second link leads nowhere when its turn
comes, and stays, as does the directory. -/
theorem exists_cleaned_bytecode : ∃ fs',
    (clean bytecodeRelease).exec .superuserAtRoot bytecodeTree =
      (.ok [⟨"/r/a.pyc"⟩, ⟨"/r/b.pyc"⟩], fs') ∧
    (∃ removals, removals.map Removal.path = [⟨"/r/a.pyc"⟩, ⟨"/r/b.pyc"⟩] ∧
      Cleaned .superuserAtRoot bytecodeRelease bytecodeTree removals fs') ∧
    (clean bytecodeRelease).exec .superuserAtRoot fs' = (.ok [], fs') := by
  have hresult : ((clean bytecodeRelease).exec .superuserAtRoot bytecodeTree).1 =
      .ok [⟨"/r/a.pyc"⟩, ⟨"/r/b.pyc"⟩] := by
    decide +kernel
  have hclean := Storage.exec_eq_of_outcome hresult
  exact ⟨_, hclean, exists_cleaned hclean⟩

end Project

end RpmRelease
