import RpmRelease.Proofs.Archive.RoundTrip
import RpmRelease.Proofs.FileSystem.Blurring
import RpmRelease.Proofs.FileSystem.Listed

/-!
# Archives of the same directory

Two directories that look the same apart from times have the same entries in the same order.  With a
fixed time each entry has the same item, and the tar file is what the items make it.  So it does not
depend on where the directories are, on who archives them, on the order in which they are listed or on
what the files were before that they are archived into, as long as these files are not in the
directories.
-/

set_option autoImplicit false

namespace RpmRelease

/-! ## The order of paths -/

/-- Names have the same text in front as some names that they begin with. -/
theorem Path.front_slashed {names others : List String} (h : names <+: others) :
    (slashed names).toList <+: (slashed others).toList := by
  obtain ⟨more, rfl⟩ := h
  induction names with
  | nil => exact List.nil_prefix
  | cons name names ih =>
      rcases List.eq_nil_or_concat' more with rfl | ⟨_, _, hmore⟩
      · simp only [List.append_nil, List.prefix_rfl]
      · have hne : names ++ more ≠ [] := by simp [hmore]
        rw [List.cons_append, slashed_cons name hne]
        cases hnames : names with
        | nil => simp [slashed_singleton, String.toList_append]
        | cons other rest =>
            rw [← hnames, slashed_cons name (by simp [hnames])]
            simpa [String.toList_append] using ih

/-- The path of a directory comes before the paths of what is in it. -/
theorem Path.slashed_le {names others : List String} (h : names <+: others) :
    slashed names ≤ slashed others :=
  (front_slashed h).le

namespace Archive

variable {c c₁ c₂ : Caller} {fs fs₁ fs₂ : FileSystem} {staging staging₁ staging₂ : Path}
  {entries entries₁ entries₂ : List (Location × Node)}

/-! ## Directories that look the same -/

/-- Two directories look the same apart from times: so do their tops, as the paths show them, and what
stands at the end of the same names below them. -/
structure LookAlike (c₁ c₂ : Caller) (fs₁ fs₂ : FileSystem) (staging₁ staging₂ : Path) : Prop where
  top : ∃ node₁ node₂, fs₁.lstat c₁ staging₁ = .ok node₁ ∧ fs₂.lstat c₂ staging₂ = .ok node₂ ∧
    node₁.blur true = node₂.blur true
  below : ∀ base₁ base₂ directory₁ directory₂,
    Lookup.find c₁ fs₁ true staging₁ = .ok (base₁, directory₁) →
    Lookup.find c₂ fs₂ true staging₂ = .ok (base₂, directory₂) →
    ∀ names ≠ [], (fs₁.get? (base₁ ++ names)).map (·.blur true) =
      (fs₂.get? (base₂ ++ names)).map (·.blur true)

/-- Two directories look the same in whatever order they are named. -/
theorem LookAlike.symm (h : LookAlike c₁ c₂ fs₁ fs₂ staging₁ staging₂) :
    LookAlike c₂ c₁ fs₂ fs₁ staging₂ staging₁ where
  top := by
    obtain ⟨node₁, node₂, h₁, h₂, hsame⟩ := h.top
    exact ⟨node₂, node₁, h₂, h₁, hsame.symm⟩
  below := fun base₂ base₁ directory₂ directory₁ h₂ h₁ names hne =>
    (h.below base₁ base₂ directory₁ directory₂ h₁ h₂ names hne).symm

/-- An entry without its time. -/
def blurEntry (entry : Location × Node) : Location × Node :=
  (entry.1, entry.2.blur true)

/-- Directories that look the same have the same entries apart from times. -/
theorem mem_blurEntry_of_lookAlike (hlook : LookAlike c₁ c₂ fs₁ fs₂ staging₁ staging₂)
    (h₁ : Lists c₁ fs₁ staging₁ entries₁) (h₂ : Lists c₂ fs₂ staging₂ entries₂)
    {x : Location × Node} (hx : x ∈ entries₁.map blurEntry) : x ∈ entries₂.map blurEntry := by
  obtain ⟨base₁, directory₁, hfind₁, -, hmem₁⟩ := h₁.complete
  obtain ⟨base₂, directory₂, hfind₂, -, hmem₂⟩ := h₂.complete
  obtain ⟨⟨names, node⟩, hentry, rfl⟩ := List.mem_map.1 hx
  rcases (hmem₁ names node).1 hentry with ⟨rfl, hnode⟩ | ⟨hne, hnode⟩
  · obtain ⟨top₁, top₂, htop₁, htop₂, hsame⟩ := hlook.top
    obtain rfl : top₁ = node := Except.ok.inj (htop₁.symm.trans hnode)
    exact List.mem_map.2 ⟨([], top₂), (hmem₂ [] top₂).2 (.inl ⟨rfl, htop₂⟩), by simp [blurEntry, hsame]⟩
  · have hsame := hlook.below base₁ base₂ directory₁ directory₂ hfind₁ hfind₂ names hne
    rw [hnode, Option.map_some] at hsame
    obtain ⟨other, hother, hblur⟩ := Option.map_eq_some_iff.1 hsame.symm
    exact List.mem_map.2 ⟨(names, other), (hmem₂ names other).2 (.inr ⟨hne, hother⟩),
      by simp [blurEntry, hblur]⟩

/-- Entries in order are those of the directory, and nothing else: directories that look the same have
the same ones. -/
theorem map_blurEntry_eq (hlook : LookAlike c₁ c₂ fs₁ fs₂ staging₁ staging₂)
    (h₁ : Lists c₁ fs₁ staging₁ entries₁) (h₂ : Lists c₂ fs₂ staging₂ entries₂) :
    entries₁.map blurEntry = entries₂.map blurEntry := by
  have hordered₁ : (entries₁.map blurEntry).Pairwise fun a b => Path.slashed a.1 < Path.slashed b.1 :=
    List.pairwise_map.2 h₁.ordered
  have hordered₂ : (entries₂.map blurEntry).Pairwise fun a b => Path.slashed a.1 < Path.slashed b.1 :=
    List.pairwise_map.2 h₂.ordered
  refine eq_of_ordered hordered₁ hordered₂ fun x => ?_
  exact ⟨mem_blurEntry_of_lookAlike hlook h₁ h₂, mem_blurEntry_of_lookAlike hlook.symm h₂ h₁⟩

/-- Entries that are the same apart from times give the same items when all times are fixed. -/
theorem map_nodeItem_eq {top : String} {t : Nat}
    (h : entries₁.map blurEntry = entries₂.map blurEntry) :
    (entries₁.map fun entry => nodeItem top (some t) entry.1 entry.2) =
      entries₂.map fun entry => nodeItem top (some t) entry.1 entry.2 := by
  have hmap (entries : List (Location × Node)) :
      (entries.map fun entry => nodeItem top (some t) entry.1 entry.2) =
        (entries.map blurEntry).map fun entry => nodeItem top (some t) entry.1 entry.2 := by
    rw [List.map_map]
    refine List.map_congr_left fun entry _ => ?_
    obtain ⟨names, node⟩ := entry
    cases node <;> rfl
  rw [hmap, hmap entries₂, h]

/-! ## The order of entries -/

/-- The entries of a directory begin with the directory itself. -/
theorem Lists.head (h : Lists c fs staging entries) :
    ∃ node rest, entries = ([], node) :: rest := by
  obtain ⟨node, htop⟩ := h.top
  have hordered := h.ordered
  cases entries with
  | nil => exact absurd htop List.not_mem_nil
  | cons entry rest =>
      rcases List.mem_cons.1 htop with rfl | hrest
      · exact ⟨node, rest, rfl⟩
      · have hlt := (List.pairwise_cons.1 hordered).1 _ hrest
        exact absurd hlt (Path.slashed_le List.nil_prefix)

/-- A directory comes before everything below it. -/
theorem Lists.above (h : Lists c fs staging entries) :
    entries.Pairwise fun a b => ¬ b.1 <+: a.1 :=
  h.ordered.imp fun hlt habove => Path.slashed_le habove hlt

/-! ## Where the archive is written -/

/-- The file that one path is opened as for writing is not in the directory of another path. -/
def Apart (c : Caller) (fs : FileSystem) (staging out : Path) : Prop :=
  ∀ base directory l opened, Lookup.find c fs true staging = .ok (base, directory) →
    fs.openWrite c Mode.file out = .ok (l, opened) → ¬ base <+: l

/-- A directory is seen as before when a file is opened. -/
theorem lstat_opened {opened : FileSystem} {out : Path} {l base : Location} {mode : Mode}
    {directory node : Node} (hopened : FileSystem.Opened c fs opened out l mode)
    (hfind : Lookup.find c fs true staging = .ok (base, directory))
    (hkind : directory.kind = .directory) (hnode : fs.lstat c staging = .ok node) :
    opened.lstat c staging = .ok node := by
  obtain ⟨k, hplace⟩ := Lookup.lstat_eq_ok_iff.1 hnode
  have hne : k ≠ l := by
    rintro rfl
    have hfile := hopened.file node (Lookup.get?_of_find hplace)
    have hfollow := Lookup.find_follow (by simp [hfile]) hplace
    rw [hfind] at hfollow
    obtain rfl : directory = node := congrArg Prod.snd (Except.ok.inj hfollow)
    simp [hkind] at hfile
  rw [hopened.eq_set]
  exact Lookup.lstat_eq_ok_iff.2 ⟨k, Lookup.find_set_of_ne hopened.file rfl hne hplace⟩

/-- A file that is opened elsewhere leaves the entries of a directory. -/
theorem lists_of_opened {opened : FileSystem} {out : Path} {l base : Location} {mode : Mode}
    {directory node : Node} (hopened : FileSystem.Opened c fs opened out l mode)
    (hfind : Lookup.find c fs true staging = .ok (base, directory))
    (hkind : directory.kind = .directory) (hnode : fs.lstat c staging = .ok node)
    (hapart : ¬ base <+: l) (h : Lists c opened staging entries) : Lists c fs staging entries where
  complete := by
    refine ⟨base, directory, hfind, hkind, fun names other => ?_⟩
    obtain ⟨base', _, hfind', -, hmem⟩ := h.complete
    obtain rfl : base = base' := by
      rw [hopened.find_directory hkind hfind] at hfind'
      exact congrArg Prod.fst (Except.ok.inj hfind')
    have hget : opened.get? (base ++ names) = fs.get? (base ++ names) := by
      rw [hopened.eq_set, FileSystem.get?_set, if_neg]
      rintro rfl
      exact hapart (List.prefix_append base names)
    rw [hmem, lstat_opened hopened hfind hkind hnode, hnode, hget]
  top := h.top
  ordered := h.ordered

/-- A tar file that is not in the directory holds the items of the entries that were there before. -/
theorem exists_entries_of_writeTarBy {listing : Listing} {top : String} {out : Path}
    {fixed : Option Nat} {k : Nat} {fs' : FileSystem} {node : Node} (hlisting : listing.Reorders)
    (wf : fs.WellFormed) (hapart : Apart c fs staging out) (hnode : fs.lstat c staging = .ok node)
    (h : (writeTarBy listing staging top out fixed).exec c fs = (.ok k, fs')) :
    ∃ place mode entries records,
      Lookup.find c fs' true out = .ok (place, .file mode c.now (records.flatten ++ Tar.ending)) ∧
      Lists c fs staging entries ∧ entries.length = k ∧
      ((entries.map fun entry => nodeItem top fixed entry.1 entry.2).forM
        Tar.Writer.append).run [] = (.ok (), records.flatten) ∧
      List.Forall₂ (fun entry record => (nodeItem top fixed entry.1 entry.2).Written record)
        entries records := by
  obtain ⟨hdirectory, opened, place, _, written, hopen, hentries, hout, rfl⟩ := of_writeTarBy_ok h
  obtain ⟨l, hopenWrite⟩ := FileSystem.openWrite_of_writeFile_nil hopen
  obtain ⟨mode, hopened⟩ := FileSystem.opened_of_openWrite hopenWrite
  obtain rfl : l = place := congrArg Prod.fst (Except.ok.inj (hopened.find.symm.trans hout))
  obtain ⟨base, directory, hfind, hkind⟩ := Lookup.exists_of_isDirectory hdirectory
  obtain ⟨entries, records, hlists, hcount, -, hrun, hrecords, rfl⟩ :=
    exists_entries_of_writeEntriesBy hlisting (hopened.wellFormed wf)
      (hopened.find_directory hkind hfind) hkind hentries
  -- the file was opened before the directory was listed, and it is not among the entries
  obtain ⟨mode', hfill⟩ := FileSystem.find_fill hopened (records.flatten ++ Tar.ending)
  have happart : ¬ base <+: l := hapart base directory l opened hfind hopenWrite
  exact ⟨l, mode', entries, records, hfill,
    lists_of_opened hopened hfind hkind hnode happart hlists, hcount, hrun, hrecords⟩

/-- Two directories that look the same apart from times are archived as the same bytes under the same
name and with the same time for all entries, however they are listed and whatever was where the archives
are written, as long as that is not in the directories.  As many entries are counted as there are, the
directory itself comes first, and every directory comes before everything below it. -/
theorem writeTar_reproducible {listing₁ listing₂ : Listing} {top : String} {out₁ out₂ : Path} {t : Nat}
    {k₁ k₂ : Nat} {fs₁' fs₂' : FileSystem} (wf₁ : fs₁.WellFormed) (wf₂ : fs₂.WellFormed)
    (hlisting₁ : listing₁.Reorders) (hlisting₂ : listing₂.Reorders)
    (hlook : LookAlike c₁ c₂ fs₁ fs₂ staging₁ staging₂)
    (hapart₁ : Apart c₁ fs₁ staging₁ out₁) (hapart₂ : Apart c₂ fs₂ staging₂ out₂)
    (h₁ : (writeTarBy listing₁ staging₁ top out₁ (some t)).exec c₁ fs₁ = (.ok k₁, fs₁'))
    (h₂ : (writeTarBy listing₂ staging₂ top out₂ (some t)).exec c₂ fs₂ = (.ok k₂, fs₂')) :
    k₁ = k₂ ∧ ∃ place₁ place₂ mode₁ mode₂ entries records,
      Lookup.find c₁ fs₁' true out₁ =
        .ok (place₁, .file mode₁ c₁.now (records.flatten ++ Tar.ending)) ∧
      Lookup.find c₂ fs₂' true out₂ =
        .ok (place₂, .file mode₂ c₂.now (records.flatten ++ Tar.ending)) ∧
      Lists c₁ fs₁ staging₁ entries ∧ entries.length = k₁ ∧
      List.Forall₂ (fun entry record => (nodeItem top (some t) entry.1 entry.2).Written record)
        entries records ∧
      (∃ node rest, entries = ([], node) :: rest) ∧ entries.Pairwise fun a b => ¬ b.1 <+: a.1 := by
  obtain ⟨node₁, node₂, hnode₁, hnode₂, -⟩ := hlook.top
  obtain ⟨place₁, mode₁, entries₁, records₁, hfind₁, hlists₁, hcount₁, hrun₁, hwritten₁⟩ :=
    exists_entries_of_writeTarBy hlisting₁ wf₁ hapart₁ hnode₁ h₁
  obtain ⟨place₂, mode₂, entries₂, records₂, hfind₂, hlists₂, hcount₂, hrun₂, -⟩ :=
    exists_entries_of_writeTarBy hlisting₂ wf₂ hapart₂ hnode₂ h₂
  have hentries := map_blurEntry_eq hlook hlists₁ hlists₂
  have hrecords : records₂.flatten = records₁.flatten := by
    rw [map_nodeItem_eq hentries, hrun₂] at hrun₁
    exact congrArg Prod.snd hrun₁
  refine ⟨?_, place₁, place₂, mode₁, mode₂, entries₁, records₁, hfind₁, ?_, hlists₁, hcount₁, hwritten₁,
    hlists₁.head, hlists₁.above⟩
  · have hlength := congrArg List.length hentries
    rw [List.length_map, List.length_map] at hlength
    rw [← hcount₁, ← hcount₂, hlength]
  · rw [hfind₂, hrecords]

/-! ## Two directories -/

/-- A directory with one file in it. -/
def plainTree : FileSystem :=
  .ofNodes [
    (["d", "a"], .file Mode.file 7 [1]),
    (["d"], .directory Mode.directory 0)]

/-- The same directory with other times and another name, beside a file. -/
def movedTree : FileSystem :=
  .ofNodes [
    (["e", "a"], .file Mode.file 9 [1]),
    (["e"], .directory Mode.directory 3),
    (["u"], .file Mode.file 0 [5])]

/-- The first directory again, with a link to its file beside it. -/
def linkedTree : FileSystem :=
  .ofNodes [
    (["d", "a"], .file Mode.file 7 [1]),
    (["d"], .directory Mode.directory 0),
    (["t"], .link "d/a" 0)]

/-- A file that is opened at a location outside a directory is apart from that directory. -/
theorem apart_of_places {out : Path} {base l : Location} {directory : Node}
    (hfind : Lookup.find c fs true staging = .ok (base, directory))
    (hopen : (fs.openWrite c Mode.file out).map Prod.fst = .ok l) (h : ¬ base <+: l) :
    Apart c fs staging out := by
  intro base' directory' l' opened hfind' hopen'
  obtain rfl : base = base' := congrArg Prod.fst (Except.ok.inj (hfind.symm.trans hfind'))
  rw [hopen'] at hopen
  obtain rfl : l' = l := Except.ok.inj hopen
  exact h

/-- Two directories look the same when the same stands below the locations they lead to, apart from
times. -/
theorem lookAlike_of_places {base₁ base₂ : Location} {directory₁ directory₂ node₁ node₂ : Node}
    (hfind₁ : Lookup.find c₁ fs₁ true staging₁ = .ok (base₁, directory₁))
    (hfind₂ : Lookup.find c₂ fs₂ true staging₂ = .ok (base₂, directory₂))
    (hnode₁ : fs₁.lstat c₁ staging₁ = .ok node₁) (hnode₂ : fs₂.lstat c₂ staging₂ = .ok node₂)
    (htop : node₁.blur true = node₂.blur true)
    (hbelow : ∀ names ≠ [], (fs₁.get? (base₁ ++ names)).map (·.blur true) =
      (fs₂.get? (base₂ ++ names)).map (·.blur true)) :
    LookAlike c₁ c₂ fs₁ fs₂ staging₁ staging₂ where
  top := ⟨node₁, node₂, hnode₁, hnode₂, htop⟩
  below := by
    intro base₁' base₂' directory₁' directory₂' hfind₁' hfind₂'
    obtain rfl : base₁ = base₁' := congrArg Prod.fst (Except.ok.inj (hfind₁.symm.trans hfind₁'))
    obtain rfl : base₂ = base₂' := congrArg Prod.fst (Except.ok.inj (hfind₂.symm.trans hfind₂'))
    exact hbelow

/-- The path of the plain directory leads to it, and it is no link. -/
theorem seen_plainTree :
    Lookup.find root plainTree true ⟨"/d"⟩ = .ok (["d"], .directory Mode.directory 0) ∧
      plainTree.lstat root ⟨"/d"⟩ = .ok (.directory Mode.directory 0) := by
  decide +kernel

/-- The plain directory is archived with its file. -/
theorem writeTar_plainTree :
    ((writeTar ⟨"/d"⟩ "p" ⟨"/t"⟩ (some 0)).exec root plainTree).1 = .ok 2 := by
  simp only [writeTar, writeEntries, sorted_eq_ite]
  decide +kernel

/-- Both directories are archived in the same way. -/
theorem writeTar_reproducible_moved : ∃ fs₁' fs₂' place₁ place₂ mode₁ mode₂ archive,
    (writeTar ⟨"/d"⟩ "p" ⟨"/t"⟩ (some 0)).exec root plainTree = (.ok 2, fs₁') ∧
    (writeTar ⟨"/e"⟩ "p" ⟨"/u"⟩ (some 0)).exec root movedTree = (.ok 2, fs₂') ∧
    Lookup.find root fs₁' true ⟨"/t"⟩ = .ok (place₁, .file mode₁ 0 archive) ∧
    Lookup.find root fs₂' true ⟨"/u"⟩ = .ok (place₂, .file mode₂ 0 archive) := by
  have hrun₁ := writeTar_plainTree
  have hrun₂ : ((writeTar ⟨"/e"⟩ "p" ⟨"/u"⟩ (some 0)).exec root movedTree).1 = .ok 2 := by
    simp only [writeTar, writeEntries, sorted_eq_ite]
    decide +kernel
  obtain ⟨hfind₁, hnode₁⟩ := seen_plainTree
  have hfind₂ : Lookup.find root movedTree true ⟨"/e"⟩ =
      .ok (["e"], .directory Mode.directory 3) := by decide +kernel
  have hnode₂ : movedTree.lstat root ⟨"/e"⟩ = .ok (.directory Mode.directory 3) := by decide +kernel
  have hlook : LookAlike root root plainTree movedTree ⟨"/d"⟩ ⟨"/e"⟩ := by
    refine lookAlike_of_places hfind₁ hfind₂ hnode₁ hnode₂ rfl fun names hne => ?_
    rw [plainTree, movedTree, FileSystem.get?_ofNodes, FileSystem.get?_ofNodes]
    by_cases ha : ["a"] = names
    · simp [FileSystem.nodeAt, ← ha, Node.blur]
    · simp [FileSystem.nodeAt, ha, hne]
  have hrun₁' := Storage.exec_eq_of_outcome hrun₁
  have hrun₂' := Storage.exec_eq_of_outcome hrun₂
  obtain ⟨-, place₁, place₂, mode₁, mode₂, _, records, harchive₁, harchive₂, -⟩ :=
    writeTar_reproducible (FileSystem.wellFormed_ofNodes (by decide))
      (FileSystem.wellFormed_ofNodes (by decide)) reorders_walked reorders_walked hlook
      (apart_of_places (l := ["t"]) hfind₁ (by decide +kernel) (by decide))
      (apart_of_places (l := ["u"]) hfind₂ (by decide +kernel) (by decide)) hrun₁' hrun₂'
  exact ⟨_, _, place₁, place₂, mode₁, mode₂, _, hrun₁', hrun₂', harchive₁, harchive₂⟩

/-- An archive that is written through a link into the directory empties a file first.  The directories
looked the same, and the archives are not. -/
theorem exists_different_archives :
    LookAlike root root plainTree linkedTree ⟨"/d"⟩ ⟨"/d"⟩ ∧
    ∃ fs₁' fs₂', (writeTar ⟨"/d"⟩ "p" ⟨"/t"⟩ (some 0)).exec root plainTree = (.ok 2, fs₁') ∧
      (writeTar ⟨"/d"⟩ "p" ⟨"/t"⟩ (some 0)).exec root linkedTree = (.ok 2, fs₂') ∧
      fs₁'.read root ⟨"/t"⟩ ≠ fs₂'.read root ⟨"/t"⟩ := by
  have hlook : LookAlike root root plainTree linkedTree ⟨"/d"⟩ ⟨"/d"⟩ := by
    obtain ⟨hfind₁, hnode₁⟩ := seen_plainTree
    have hfind₂ : Lookup.find root linkedTree true ⟨"/d"⟩ =
        .ok (["d"], .directory Mode.directory 0) := by decide +kernel
    have hnode₂ : linkedTree.lstat root ⟨"/d"⟩ = .ok (.directory Mode.directory 0) := by
      decide +kernel
    refine lookAlike_of_places hfind₁ hfind₂ hnode₁ hnode₂ rfl fun names hne => ?_
    rw [plainTree, linkedTree, FileSystem.get?_ofNodes, FileSystem.get?_ofNodes]
    simp [FileSystem.nodeAt]
  have hrun₁ := writeTar_plainTree
  have hrun₂ : ((writeTar ⟨"/d"⟩ "p" ⟨"/t"⟩ (some 0)).exec root linkedTree).1 = .ok 2 := by
    simp only [writeTar, writeEntries, sorted_eq_ite]
    decide +kernel
  refine ⟨hlook, _, _, Storage.exec_eq_of_outcome hrun₁, Storage.exec_eq_of_outcome hrun₂, ?_⟩
  -- the content of the one file makes the archive longer by a block
  intro hsame
  have hlength := congrArg (fun content => (content.toOption.map List.length).getD 0) hsame
  revert hlength
  simp only [writeTar, writeEntries, sorted_eq_ite]
  decide +kernel

end Archive

end RpmRelease
