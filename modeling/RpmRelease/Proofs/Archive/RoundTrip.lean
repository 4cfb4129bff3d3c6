import Mathlib.Algebra.Ring.Int.Defs
import Mathlib.Data.List.Perm.Basic
import Mathlib.Tactic.Common
import RpmRelease.Archive
import RpmRelease.Proofs.FileSystem.Listed
import RpmRelease.Proofs.Tar.Stream

/-!
# Reading an archive back

The archive of a staging directory is written in four steps: the tar file is opened, which may
already change the directory, the directory is walked, the paths are sorted, and an item is written
for each.  The theorems here follow these steps and end with what a reader of the tar file finds:
one member for each node of the directory, in the order of the paths, and nothing else.
-/

set_option autoImplicit false

namespace RpmRelease

/-- Times and sizes are numbers of 63 bits, as the system stores them. -/
structure Node.Storable (node : Node) : Prop where
  time : node.time < 2 ^ 63
  size : node.size < 2 ^ 63
  target : ∀ target time, node = .link target time → target.utf8ByteSize < 2 ^ 63

/-- Every node of a file system can be stored. -/
def FileSystem.Storable (fs : FileSystem) : Prop :=
  ∀ l node, fs.get? l = some node → node.Storable

namespace Archive

variable {caller : Caller} {fs : FileSystem}

/-! ## What is archived -/

/-- What a node becomes in an archive. -/
def nodeBody : Node → Tar.Body
  | .directory .. => .directory
  | .file _ _ content => .file content
  | .link target _ => .link ⟨target⟩

/-- A character of a name as an archive has it: a slash stands for a backslash. -/
def forward (c : Char) : Char :=
  if c = '\\' then '/' else c

/-- The name that a node has in an archive: that of the directory at the top, and behind it the names
that lead to the node, with slashes between them and for every backslash in them. -/
def nodeName (top : String) : Location → Path
  | [] => ⟨top⟩
  | name :: names =>
    ⟨top ++ "/" ++ String.ofList ((Path.slashed (name :: names)).toList.map forward)⟩

/-- The time that a node has in an archive: the fixed one or else its own, in whole seconds, and zero
for a time before the epoch. -/
def nodeTime : Option Nat → Node → Nat
  | some n, _ => n
  | none, node => if node.time < 0 then 0 else node.time.natAbs

/-- The item that has to be in the archive for a node; the names lead to it from the directory that
is archived. -/
def nodeItem (top : String) (fixed : Option Nat) (names : Location) (node : Node) : Tar.Item where
  path := nodeName top names
  mode := node.mode.toNat
  time := nodeTime fixed node
  body := nodeBody node

/-- The entries of the directory that a path leads to: one of its own, and one for every node below,
in the order of the paths from there. -/
structure Lists (caller : Caller) (fs : FileSystem) (staging : Path)
    (entries : List (Location × Node)) : Prop where
  complete : ∃ base directory, Lookup.find caller fs true staging = .ok (base, directory) ∧
    directory.kind = .directory ∧
    ∀ names node, (names, node) ∈ entries ↔
      (names = [] ∧ fs.lstat caller staging = .ok node) ∨
        (names ≠ [] ∧ fs.get? (base ++ names) = some node)
  top : ∃ node, ([], node) ∈ entries
  ordered : entries.Pairwise fun a b => Path.slashed a.1 < Path.slashed b.1

/-! ## The steps of writing -/

/-- A way to list what is in a directory. -/
abbrev Listing : Type := Caller → FileSystem → Path → Except WalkError (List Path)

/-- What is listed is what a walk meets, in any order. -/
def Listing.Reorders (listing : Listing) : Prop :=
  ∀ caller fs staging paths, listing caller fs staging = .ok paths →
    ∃ found, fs.walk caller staging = .ok found ∧ paths.Perm found

/-- Writing the entries of a directory that is listed in some way. -/
def writeEntriesBy (listing : Listing) (caller : Caller) (fs : FileSystem) (staging : Path)
    (top : String) (fixed : Option Nat) : Tar.Writer Nat := do
  match listing caller fs staging with
  | .error e => throw e.toFileError
  | .ok paths =>
    let paths := sorted staging paths
    paths.forM fun path => do
      match item caller fs staging top fixed path with
      | .ok item => Tar.Writer.append item
      | .error e => throw e
    return paths.length

/-- Writing a directory that is listed in some way into a tar file. -/
def writeTarBy (listing : Listing) (staging : Path) (top : String) (out : Path)
    (fixed : Option Nat) : Storage FileError Nat := do
  if !(← Storage.isDirectory staging) then
    throw (.custom .notFound ("staging directory " ++ staging.text ++ " does not exist"))
  Storage.writeFile out []
  Storage.ofExec fun caller fs =>
    let (outcome, written) := (writeEntriesBy listing caller fs staging top fixed).run []
    match Lookup.find caller fs true out with
    | .ok (l, _) => (outcome, fs.fill caller l (written ++ Tar.ending))
    | .error e => (.error e, fs)

/-- The listing of the walk. -/
def walked : Listing := fun caller fs staging => fs.walk caller staging

/-- The walk is the listing that the tar file is written by. -/
theorem writeTarBy_walked : writeTarBy walked = writeTar := rfl

/-- The walk of a directory is one of its listings. -/
theorem reorders_walked : walked.Reorders :=
  fun _ _ _ paths h => ⟨paths, h, .refl _⟩

section Steps

variable {listing : Listing}

/-- A tar file was written when all steps succeeded. -/
theorem of_writeTarBy_ok {staging out : Path} {top : String} {fixed : Option Nat} {k : Nat}
    {fs' : FileSystem} (h : (writeTarBy listing staging top out fixed).exec caller fs = (.ok k, fs')) :
    fs.isDirectory caller staging = true ∧ ∃ opened place node written,
      (Storage.writeFile out []).exec caller fs = (.ok (), opened) ∧
      (writeEntriesBy listing caller opened staging top fixed).run [] = (.ok k, written) ∧
      Lookup.find caller opened true out = .ok (place, node) ∧
      fs' = opened.fill caller place (written ++ Tar.ending) := by
  unfold writeTarBy at h
  obtain ⟨isDirectory, _, hquery, h⟩ := Storage.of_exec_bind_ok h
  obtain ⟨hdirectory, rfl⟩ := Storage.of_exec_query_ok hquery
  obtain ⟨hpassed, h⟩ := Storage.of_exec_check_ok h
  obtain ⟨_, opened, hopen, h⟩ := Storage.of_exec_bind_ok h
  have htrue : fs.isDirectory caller staging = true := by
    have hanswer : isDirectory = true := by simpa using hpassed
    exact (Except.ok.inj hdirectory).trans hanswer
  refine ⟨htrue, opened, ?_⟩
  rw [Storage.exec_ofExec] at h
  rcases hfind : Lookup.find caller opened true out with e | ⟨place, node⟩
  · rw [hfind] at h
    have hfailed : (.error e : Except FileError Nat) = .ok k := congrArg Prod.fst h
    exact absurd hfailed (by simp)
  · rw [hfind] at h
    have houtcome : ((writeEntriesBy listing caller opened staging top fixed).run []).1 = .ok k :=
      congrArg Prod.fst h
    refine ⟨place, node, _, hopen, ?_, rfl, (congrArg Prod.snd h).symm⟩
    rw [← houtcome]
    rfl

/-- The entries were written one behind the other. -/
theorem of_appendAll_ok {staging : Path} {top : String} {fixed : Option Nat} {paths : List Path}
    {written written' : Bytes}
    (h : (paths.forM fun path => match item caller fs staging top fixed path with
      | .ok item => Tar.Writer.append item
      | .error e => throw e : Tar.Writer PUnit).run written = (.ok (), written')) :
    ∃ items records, paths.mapM (item caller fs staging top fixed) = .ok items ∧
      (items.forM Tar.Writer.append).run written = (.ok (), written') ∧
      List.Forall₂ Tar.Item.Written items records ∧ written' = written ++ records.flatten := by
  -- on the paths; an item that cannot be read would have ended the writing
  induction paths generalizing written with
  | nil =>
      obtain ⟨_, rfl⟩ := Run.ok_inj h
      exact ⟨[], [], rfl, rfl, .nil, (List.append_nil written).symm⟩
  | cons path paths ih =>
      rw [List.forM_eq_forM, List.forM_cons] at h
      obtain ⟨_, _, happend, h⟩ := Run.of_run_bind_ok h
      cases hitem : item caller fs staging top fixed path with
      | error e =>
          rw [hitem] at happend
          exact absurd happend Run.run_throw_ne_ok
      | ok it =>
          rw [hitem] at happend
          obtain ⟨items, records, hitems, hrun, hrecords, hwritten⟩ := ih h
          obtain ⟨record, rfl, hrecord⟩ := Tar.exists_of_append happend
          obtain rfl := hwritten
          refine ⟨it :: items, record :: records, ?_, ?_, .cons hrecord hrecords, ?_⟩
          · rw [List.mapM_cons, hitem, hitems]
            rfl
          · rw [List.forM_eq_forM, List.forM_cons, Run.run_bind_of_ok _ happend]
            exact hrun
          · rw [List.flatten_cons, List.append_assoc]

/-- All entries were written: those of the listing, in order. -/
theorem of_writeEntriesBy_ok {staging : Path} {top : String} {fixed : Option Nat} {k : Nat}
    {written : Bytes}
    (h : (writeEntriesBy listing caller fs staging top fixed).run [] = (.ok k, written)) :
    ∃ paths items records, listing caller fs staging = .ok paths ∧ k = paths.length ∧
      (sorted staging paths).mapM (item caller fs staging top fixed) = .ok items ∧
      (items.forM Tar.Writer.append).run [] = (.ok (), written) ∧
      List.Forall₂ Tar.Item.Written items records ∧ written = records.flatten := by
  unfold writeEntriesBy at h
  cases hlisting : listing caller fs staging with
  | error e =>
      rw [hlisting] at h
      exact absurd h Run.run_throw_ne_ok
  | ok paths =>
      rw [hlisting] at h
      obtain ⟨_, _, happend, h⟩ := Run.of_run_bind_ok h
      obtain ⟨items, records, hitems, hrun, hrecords, hwritten⟩ := of_appendAll_ok happend
      obtain ⟨hcount, rfl⟩ := Run.ok_inj h
      refine ⟨paths, items, records, rfl, ?_, hitems, hrun, hrecords, hwritten⟩
      rw [← hcount]
      exact List.length_mergeSort paths

end Steps

/-- What was made of a path tells of the node that the path leads to, links not followed. -/
theorem of_item_ok {staging path : Path} {top : String} {fixed : Option Nat} {it : Tar.Item}
    (h : item caller fs staging top fixed path = .ok it) :
    ∃ l node, Lookup.find caller fs false path = .ok (l, node) ∧
      it = ⟨entryName top (relative staging path), node.mode.toNat, entryTime fixed node,
        nodeBody node⟩ := by
  obtain ⟨node, hnode, h⟩ := Run.of_bind_ok h
  obtain ⟨l, hfind⟩ := Lookup.lstat_eq_ok_iff.1 hnode
  refine ⟨l, node, hfind, ?_⟩
  cases node with
  | directory mode time => exact (Except.ok.inj h).symm
  | link target time =>
      obtain ⟨body, hbody, h⟩ := Run.of_bind_ok h
      obtain ⟨target', htarget, hbody⟩ := Run.of_map_ok hbody
      have hread : fs.readLink caller path = .ok ⟨target⟩ := by
        rw [FileSystem.readLink, hnode]
        rfl
      rw [hread] at htarget
      obtain rfl := Except.ok.inj htarget
      rw [← Except.ok.inj h, ← hbody]
      rfl
  | file mode time content =>
      obtain ⟨body, hbody, h⟩ := Run.of_bind_ok h
      obtain ⟨content', hcontent, hbody⟩ := Run.of_map_ok hbody
      have hstat := Lookup.find_follow (by simp [Node.kind]) hfind
      obtain rfl := Lookup.eq_content_of_read hstat hcontent
      rw [← Except.ok.inj h, ← hbody]
      rfl

/-! ## The entries in order -/

/-- The names of the entries in the order of the paths that they make up. -/
def inOrder (names : List Location) : List Location :=
  names.mergeSort fun a b => Path.slashed a ≤ Path.slashed b

/-- The names behind a directory make up the path from there. -/
theorem relative_along {staging : Path} {names : Location} (htext : staging.text ≠ "")
    (hnames : ∀ name ∈ names, Path.IsName name) :
    relative staging (staging.along names) = Path.slashed names := by
  rw [relative, Path.below?_along htext hnames, Option.getD_some]

/-- Sorting paths behind a directory sorts the names that lead to them. -/
theorem sorted_along {staging : Path} {names : List Location} (htext : staging.text ≠ "")
    (hnames : ∀ rest ∈ names, ∀ name ∈ rest, Path.IsName name) :
    sorted staging (names.map staging.along) = (inOrder names).map staging.along := by
  rw [sorted, inOrder, List.map_mergeSort]
  intro a ha b hb
  rw [relative_along htext (hnames a ha), relative_along htext (hnames b hb)]

/-- Sorting leaves paths alone that are in order, and sorts the others. -/
theorem sorted_eq_ite (staging : Path) (paths : List Path) : sorted staging paths =
    if paths.Pairwise fun a b => relative staging a ≤ relative staging b then paths
    else paths.mergeSort fun a b => relative staging a ≤ relative staging b := by
  split
  · next hordered => exact List.mergeSort_of_pairwise (hordered.imp decide_eq_true)
  · rfl

/-- Different names stand in strict order. -/
theorem pairwise_inOrder {names : List Location} (hnodup : names.Nodup)
    (hnames : ∀ rest ∈ names, ∀ name ∈ rest, Path.IsName name) :
    (inOrder names).Pairwise fun a b => Path.slashed a < Path.slashed b := by
  have hperm : (inOrder names).Perm names := List.mergeSort_perm names _
  have hle : (inOrder names).Pairwise fun a b => decide (Path.slashed a ≤ Path.slashed b) = true := by
    refine List.pairwise_mergeSort ?_ ?_ names
    · intro a b c hab hbc
      exact decide_eq_true (String.le_trans (of_decide_eq_true hab) (of_decide_eq_true hbc))
    · intro a b
      rcases String.le_total (Path.slashed a) (Path.slashed b) with h | h <;> simp [h]
  have hne : (inOrder names).Pairwise fun a b => a ≠ b := hperm.nodup_iff.2 hnodup
  refine (hle.and hne).imp_of_mem fun {a b} ha hb hboth => ?_
  refine Std.lt_of_le_of_ne (of_decide_eq_true hboth.1) fun heq => hboth.2 ?_
  exact Path.slashed_inj (hnames a (hperm.mem_iff.1 ha)) (hnames b (hperm.mem_iff.1 hb)) heq

/-- Lists of entries in the order of their paths are equal when the same entries are in them. -/
theorem eq_of_ordered {entries others : List (Location × Node)}
    (h : entries.Pairwise fun a b => Path.slashed a.1 < Path.slashed b.1)
    (h' : others.Pairwise fun a b => Path.slashed a.1 < Path.slashed b.1)
    (hmem : ∀ x, x ∈ entries ↔ x ∈ others) : entries = others := by
  have hnodup {list : List (Location × Node)}
      (hlist : list.Pairwise fun a b => Path.slashed a.1 < Path.slashed b.1) : list.Nodup := by
    refine hlist.imp fun {a b} hlt heq => ?_
    rw [heq] at hlt
    exact String.lt_irrefl _ hlt
  have hperm := (List.perm_ext_iff_of_nodup (hnodup h) (hnodup h')).2 hmem
  refine List.Perm.eq_of_pairwise (fun a b _ _ hab hba => ?_) h h' hperm
  exact absurd hba (String.lt_asymm hab)

/-! ## The entries and their items -/

/-- Entries are named as their nodes have to be. -/
theorem entryName_slashed {top : String} {names : Location}
    (hnames : ∀ name ∈ names, Path.IsName name) :
    entryName top (Path.slashed names) = nodeName top names := by
  cases names with
  | nil => rfl
  | cons name names =>
      have hne : Path.slashed (name :: names) ≠ "" := by
        intro hnil
        have hsame : Path.slashed (name :: names) = Path.slashed [] := hnil
        exact List.cons_ne_nil name names (Path.slashed_inj hnames (by simp) hsame)
      rw [entryName, if_neg (by simpa using hne)]
      rfl

/-- Entries have the times that their nodes have to have. -/
theorem entryTime_eq (fixed : Option Nat) (node : Node) :
    entryTime fixed node = nodeTime fixed node := by
  cases fixed with
  | some n => rfl
  | none =>
      rw [entryTime, nodeTime, Option.getD_none]
      split <;> omega

/-- Every item is that of a node which its path leads to. -/
theorem exists_entries {staging : Path} {top : String} {fixed : Option Nat} {names : List Location}
    {items : List Tar.Item} (htext : staging.text ≠ "")
    (hnames : ∀ rest ∈ names, ∀ name ∈ rest, Path.IsName name)
    (h : (names.map staging.along).mapM (item caller fs staging top fixed) = .ok items) :
    ∃ entries : List (Location × Node), entries.map Prod.fst = names ∧
      (∀ entry ∈ entries, fs.lstat caller (staging.along entry.1) = .ok entry.2) ∧
      items = entries.map fun entry => nodeItem top fixed entry.1 entry.2 := by
  induction names generalizing items with
  | nil =>
      obtain rfl := Except.ok.inj h
      exact ⟨[], rfl, by simp, rfl⟩
  | cons rest names ih =>
      rw [List.map_cons, List.mapM_cons] at h
      obtain ⟨first, hfirst, h⟩ := Run.of_bind_ok h
      obtain ⟨more, hmore, h⟩ := Run.of_bind_ok h
      obtain rfl := Except.ok.inj h
      obtain ⟨entries, hfst, hseen, rfl⟩ :=
        ih (fun other hother => hnames other (List.mem_cons_of_mem rest hother)) hmore
      obtain ⟨l, node, hfind, rfl⟩ := of_item_ok hfirst
      rw [relative_along htext (hnames rest List.mem_cons_self),
        entryName_slashed (hnames rest List.mem_cons_self), entryTime_eq]
      refine ⟨(rest, node) :: entries, by rw [List.map_cons, hfst], ?_, rfl⟩
      intro entry hentry
      rcases List.mem_cons.1 hentry with rfl | hentry
      · exact Lookup.lstat_eq_ok_iff.2 ⟨l, hfind⟩
      · exact hseen entry hentry

/-- Entries whose names are those that a walk meets, in order, are all there are. -/
theorem lists_of_meets {staging : Path} {base : Location} {directory : Node} {names : List Location}
    {entries : List (Location × Node)} (wf : fs.WellFormed)
    (hfind : Lookup.find caller fs true staging = .ok (base, directory))
    (hkind : directory.kind = .directory)
    (hmeets : FileSystem.Meets caller fs staging base names)
    (hfst : entries.map Prod.fst = inOrder names)
    (hseen : ∀ entry ∈ entries, fs.lstat caller (staging.along entry.1) = .ok entry.2) :
    Lists caller fs staging entries where
  complete := by
    refine ⟨base, directory, hfind, hkind, fun rest node => ?_⟩
    have hmem : rest ∈ names ↔ ∃ other, (rest, other) ∈ entries := by
      rw [← (List.mergeSort_perm names _).mem_iff, ← inOrder, ← hfst]
      simp
    -- the directory itself is seen as its path shows it, and may be a link
    constructor
    · intro hentry
      have hlstat : fs.lstat caller (staging.along rest) = .ok node := hseen (rest, node) hentry
      by_cases hne : rest = []
      · subst hne
        exact Or.inl ⟨rfl, hlstat⟩
      · exact Or.inr ⟨hne, (hmeets.leads rest (hmem.2 ⟨node, hentry⟩) hne).get?_of_lstat hlstat⟩
    · rintro (⟨rfl, hlstat⟩ | ⟨hne, hnode⟩)
      · obtain ⟨other, hentry⟩ := hmem.1 ((hmeets.mem_iff []).2 fun hne => absurd rfl hne)
        have htop : fs.lstat caller (staging.along []) = .ok other := hseen ([], other) hentry
        rw [Path.along, List.foldl_nil, hlstat] at htop
        exact Except.ok.inj htop ▸ hentry
      · have hrest := (hmeets.mem_iff rest).2 fun _ => ⟨node, hnode⟩
        obtain ⟨other, hentry⟩ := hmem.1 hrest
        have hlstat : fs.lstat caller (staging.along rest) = .ok other := hseen (rest, other) hentry
        have hother := (hmeets.leads rest hrest hne).get?_of_lstat hlstat
        rw [hnode] at hother
        exact Option.some.inj hother ▸ hentry
  top := by
    have htop : [] ∈ entries.map Prod.fst := by
      rw [hfst, inOrder, (List.mergeSort_perm names _).mem_iff]
      exact (hmeets.mem_iff []).2 fun hne => absurd rfl hne
    obtain ⟨⟨rest, node⟩, hentry, rfl⟩ := List.mem_map.1 htop
    exact ⟨node, hentry⟩
  ordered := by
    have hpairs := pairwise_inOrder hmeets.nodup (hmeets.isName wf)
    rw [← hfst, List.pairwise_map] at hpairs
    exact hpairs

/-- Writing a directory writes an item for each of its entries, in the order of their paths, however
the directory was listed. -/
theorem exists_entries_of_writeEntriesBy {listing : Listing} {staging : Path} {top : String}
    {fixed : Option Nat} {k : Nat} {written : Bytes} {base : Location} {directory : Node}
    (hlisting : listing.Reorders) (wf : fs.WellFormed)
    (hfind : Lookup.find caller fs true staging = .ok (base, directory))
    (hkind : directory.kind = .directory)
    (h : (writeEntriesBy listing caller fs staging top fixed).run [] = (.ok k, written)) :
    ∃ entries records, Lists caller fs staging entries ∧ entries.length = k ∧
      (∀ entry ∈ entries, (∀ name ∈ entry.1, Path.IsName name) ∧
        fs.lstat caller (staging.along entry.1) = .ok entry.2) ∧
      ((entries.map fun entry => nodeItem top fixed entry.1 entry.2).forM
        Tar.Writer.append).run [] = (.ok (), written) ∧
      List.Forall₂ (fun entry record => (nodeItem top fixed entry.1 entry.2).Written record)
        entries records ∧ written = records.flatten := by
  obtain ⟨paths, items, records, hlisted, rfl, hitems, hrun, hrecords, hwritten⟩ :=
    of_writeEntriesBy_ok h
  obtain ⟨found, hwalk, hperm⟩ := hlisting _ _ _ _ hlisted
  -- an item was made of every path, so every path leads somewhere
  have hreach : ∀ path ∈ found, ∃ r, Lookup.find caller fs false path = .ok r := by
    intro path hpath
    have hsorted : path ∈ sorted staging paths :=
      (List.mergeSort_perm paths _).mem_iff.2 (hperm.mem_iff.2 hpath)
    obtain ⟨it, _, hit⟩ :=
      FileSystem.exists_of_forall₂ (FileSystem.forall₂_of_mapM hitems) hsorted
    obtain ⟨place, node, hplace, _⟩ := of_item_ok hit
    exact ⟨(place, node), hplace⟩
  obtain ⟨met, rfl, hmet⟩ := FileSystem.exists_meets_of_walk wf hfind hkind hwalk hreach
  obtain ⟨names, rfl, hnames⟩ : ∃ names : List Location,
      paths = names.map staging.along ∧ names.Perm met := by
    have hsame := congrFun₂ (List.eq_map_comp_perm staging.along) paths met
    exact hsame.mpr hperm
  have hmeets := hmet.perm hnames
  have hisName := hmeets.isName wf
  have htext := (Lookup.of_checkText_ok (Lookup.find_eq_ok_iff.1 hfind).1).1
  rw [sorted_along htext hisName] at hitems
  have hinOrder : ∀ rest ∈ inOrder names, ∀ name ∈ rest, Path.IsName name := fun rest hrest =>
    hisName rest ((List.mergeSort_perm names _).mem_iff.1 hrest)
  obtain ⟨entries, hfst, hseen, rfl⟩ := exists_entries htext hinOrder hitems
  refine ⟨entries, records, lists_of_meets wf hfind hkind hmeets hfst hseen, ?_, ?_, hrun,
    List.forall₂_map_left_iff.1 hrecords, hwritten⟩
  · have hlength := congrArg List.length hfst
    rw [List.length_map, inOrder, List.length_mergeSort] at hlength
    rw [hlength, List.length_map]
  · intro entry hentry
    exact ⟨hinOrder entry.1 (hfst ▸ List.mem_map_of_mem hentry), hseen entry hentry⟩

/-! ## What a header can say -/

/-- The name of an entry takes as many bytes as its parts and a slash. -/
theorem length_entryName_le (top rest : String) :
    (Text.Utf8.ofString (entryName top rest).text).length ≤
      top.utf8ByteSize + 1 + rest.utf8ByteSize := by
  rw [entryName]
  split
  · rw [Text.Utf8.length_ofString, Nat.add_assoc]
    exact Nat.le_add_right _ _
  · have hwidth : ∀ c, (String.utf8EncodeChar (if c = '\\' then '/' else c)).length =
        (String.utf8EncodeChar c).length := by
      intro c
      split
      · next hc => rw [hc]; rfl
      · rfl
    have hslash : "/".utf8ByteSize = 1 := rfl
    have hrest : (String.ofList (rest.toList.map fun c => if c = '\\' then '/' else c)).utf8ByteSize =
        rest.utf8ByteSize := by
      rw [← Text.Utf8.length_ofString, ← Text.Utf8.length_ofString, Text.Utf8.ofString,
        String.toList_ofList, Text.Utf8.length_encode_map hwidth, Text.Utf8.ofString]
    apply Nat.le_of_eq
    rw [Text.Utf8.length_ofString, String.utf8ByteSize_append, String.utf8ByteSize_append, hslash,
      hrest]

/-- The item of an entry fits when its node can be stored and the names are not too long. -/
theorem nodeItem_fits {top : String} {fixed : Option Nat} {names : Location} {node : Node}
    (hnode : node.Storable) (htop : top.utf8ByteSize < 2 ^ 63)
    (hfixed : ∀ n, fixed = some n → n < 2 ^ 64) (hnames : ∀ name ∈ names, Path.IsName name)
    (hsize : (Path.slashed names).utf8ByteSize ≤ 2 * Lookup.maxPath) :
    (nodeItem top fixed names node).Fits where
  mode := Nat.lt_trans node.mode.isLt (by decide)
  time := by
    have htime := hnode.time
    show nodeTime fixed node < Text.unsignedLimit
    rw [Text.unsignedLimit]
    cases hsetting : fixed with
    | none =>
        rw [nodeTime]
        split <;> omega
    | some n =>
        have hn := hfixed n hsetting
        rw [nodeTime]
        omega
  content := by
    have hbytes := hnode.size
    have hcontent : (nodeBody node).content.length = node.size := by
      cases node <;> rfl
    show (nodeBody node).content.length + (Tar.blockSize - 1) < Text.unsignedLimit
    rw [hcontent, Tar.blockSize, Text.unsignedLimit]
    omega
  -- the names take up no more than a path may, which leaves room for the top
  path := by
    have hname := length_entryName_le top (Path.slashed names)
    rw [entryName_slashed hnames] at hname
    show (Text.Utf8.ofString (nodeName top names).text).length + 1 + (Tar.blockSize - 1) <
      Text.unsignedLimit
    rw [Tar.blockSize, Text.unsignedLimit]
    rw [Lookup.maxPath] at hsize
    omega
  target := by
    intro target hbody
    cases node with
    | directory mode time => exact absurd hbody (by simp [nodeItem, nodeBody])
    | file mode time content => exact absurd hbody (by simp [nodeItem, nodeBody])
    | link text time =>
        obtain rfl : (⟨text⟩ : Path) = target := by simpa [nodeItem, nodeBody] using hbody
        have htext := hnode.target text time rfl
        rw [Text.Utf8.length_ofString, Tar.blockSize, Text.unsignedLimit]
        show text.utf8ByteSize + 1 + (512 - 1) < _
        omega

/-- The path to a node that can be found is short, so that its size fits into a header. -/
theorem size_slashed_lt {staging : Path} {names : Location} {node : Node}
    (hnames : ∀ name ∈ names, Path.IsName name)
    (hseen : fs.lstat caller (staging.along names) = .ok node) :
    (Path.slashed names).utf8ByteSize ≤ 2 * Lookup.maxPath := by
  obtain ⟨l, hfind⟩ := Lookup.lstat_eq_ok_iff.1 hseen
  have hshort := (Lookup.of_checkText_ok (Lookup.find_eq_ok_iff.1 hfind).1).2
  have halong := Path.size_along (p := staging) hnames
  have hlength := Path.length_le_sizes hnames
  have hslashed := Path.size_slashed_le names
  omega

/-- Opening a file for writing leaves a file system that can be stored. -/
theorem storable_of_opened {opened : FileSystem} {path : Path} {l : Location} {mode : Mode}
    (hnow : caller.now < 2 ^ 63) (hstorable : fs.Storable)
    (hopened : FileSystem.Opened caller fs opened path l mode) : opened.Storable := by
  intro k node hnode
  rw [hopened.eq_set, FileSystem.get?_set] at hnode
  split at hnode
  · obtain rfl := Option.some.inj hnode
    exact ⟨hnow, show 0 < 2 ^ 63 by decide, by simp⟩
  · exact hstorable k node hnode

/-! ## Reading back -/

/-- A tar file that was written holds an item for each node of the directory, and then the end. -/
theorem exists_items_of_writeTar {staging out : Path} {top : String} {fixed : Option Nat} {k : Nat}
    {fs' : FileSystem} (wf : fs.WellFormed) (hstorable : fs.Storable)
    (hnow : caller.now < 2 ^ 63) (htop : top.utf8ByteSize < 2 ^ 63)
    (hfixed : ∀ n, fixed = some n → n < 2 ^ 64)
    (h : (writeTar staging top out fixed).exec caller fs = (.ok k, fs')) :
    ∃ place mode mode' entries records,
      Lookup.find caller fs' true out =
        .ok (place, .file mode' caller.now (records.flatten ++ Tar.ending)) ∧
      Lists caller (fs.set place (.file mode caller.now [])) staging entries ∧
      entries.length = k ∧
      (∀ entry ∈ entries, (nodeItem top fixed entry.1 entry.2).Fits) ∧
      List.Forall₂ (fun entry record => (nodeItem top fixed entry.1 entry.2).Written record)
        entries records := by
  obtain ⟨hdirectory, opened, place, node, written, hopen, hentries, hout, rfl⟩ :=
    of_writeTarBy_ok (writeTarBy_walked ▸ h)
  obtain ⟨l, mode, hopened⟩ := FileSystem.opened_of_writeFile_nil hopen
  obtain ⟨rfl, rfl⟩ : l = place ∧ .file mode caller.now [] = node := by
    simpa using hopened.find.symm.trans hout
  obtain ⟨base, directory, hfind, hkind⟩ := Lookup.exists_of_isDirectory hdirectory
  obtain ⟨entries, records, hlists, hcount, hseen, -, hrecords, rfl⟩ :=
    exists_entries_of_writeEntriesBy reorders_walked (hopened.wellFormed wf)
      (hopened.find_directory hkind hfind) hkind hentries
  obtain ⟨mode', hfill⟩ := FileSystem.find_fill hopened (records.flatten ++ Tar.ending)
  refine ⟨l, mode, mode', entries, records, hfill, hopened.eq_set ▸ hlists, hcount, ?_, hrecords⟩
  intro entry hentry
  obtain ⟨hnames, hnode⟩ := hseen entry hentry
  obtain ⟨place, hplace⟩ := Lookup.lstat_eq_ok_iff.1 hnode
  have hstorable' := storable_of_opened hnow hstorable hopened
  exact nodeItem_fits (hstorable' place entry.2 (Lookup.get?_of_find hplace)) htop hfixed hnames
    (size_slashed_lt hnames hnode)

/-- A reader finds in a file the items that it holds. -/
theorem exists_members_of_items {top : String} {fixed : Option Nat}
    {entries : List (Location × Node)} {records : List Bytes}
    (hfits : ∀ entry ∈ entries, (nodeItem top fixed entry.1 entry.2).Fits)
    (hwritten : List.Forall₂ (fun entry record =>
      (nodeItem top fixed entry.1 entry.2).Written record) entries records) :
    ∃ ms, Tar.members (records.flatten ++ Tar.ending) = (ms, none) ∧
      List.Forall₂ (fun m entry => m.Says (nodeItem top fixed entry.1 entry.2)) ms entries := by
  have hfits' : ∀ it ∈ entries.map fun entry => nodeItem top fixed entry.1 entry.2, it.Fits := by
    intro it hit
    obtain ⟨entry, hentry, rfl⟩ := List.mem_map.1 hit
    exact hfits entry hentry
  obtain ⟨ms, hmembers, hsays⟩ := Tar.exists_members hfits' (List.forall₂_map_left_iff.2 hwritten)
  exact ⟨ms, hmembers, List.forall₂_map_right_iff.1 hsays⟩

/-- Whatever was written into a tar file, a reader finds it: exactly one member for each node of the
directory, its own included, in the order of their paths, and no defect.  Each member has the name,
the kind, the mode, the time, the contents and the target of its node, and no owner. -/
theorem members_of_writeTar {staging out : Path} {top : String} {fixed : Option Nat} {k : Nat}
    {fs' : FileSystem} (wf : fs.WellFormed) (hstorable : fs.Storable)
    (hnow : caller.now < 2 ^ 63) (htop : top.utf8ByteSize < 2 ^ 63)
    (hfixed : ∀ n, fixed = some n → n < 2 ^ 64)
    (h : (writeTar staging top out fixed).exec caller fs = (.ok k, fs')) :
    ∃ place mode mode' archive entries ms,
      Lookup.find caller fs' true out = .ok (place, .file mode' caller.now archive) ∧
      Lists caller (fs.set place (.file mode caller.now [])) staging entries ∧
      entries.length = k ∧
      Tar.members archive = (ms, none) ∧
      List.Forall₂ (fun m entry => m.Says (nodeItem top fixed entry.1 entry.2)) ms entries := by
  obtain ⟨place, mode, mode', entries, records, hfind, hlists, hcount, hfits, hwritten⟩ :=
    exists_items_of_writeTar wf hstorable hnow htop hfixed h
  obtain ⟨ms, hmembers, hsays⟩ := exists_members_of_items hfits hwritten
  exact ⟨place, mode, mode', _, entries, ms, hfind, hlists, hcount, hmembers, hsays⟩

/-! ## A directory of all kinds of nodes -/

/-- A superuser at the root. -/
def root : Caller := ⟨true, [], 0⟩

/-- A directory with a directory in it, a link, a file with a backslash in its name, and a file from
before the epoch. -/
def mixed : FileSystem :=
  .ofNodes [
    (["d", "s", "f"], .file 0o640#12 (-5) [1, 2]),
    (["d", "a\\b"], .file 0o4755#12 7 [3]),
    (["d", "l"], .link "../a\\b" 9),
    (["d", "s"], .directory 0o700#12 3),
    (["d"], .directory Mode.directory 0)]

/-- All times and sizes of the mixed directory can be stored. -/
theorem mixed_storable : mixed.Storable := by
  refine FileSystem.forall_ofNodes ⟨by decide, by decide, by simp⟩ fun entry hentry => ?_
  simp only [List.mem_cons, List.not_mem_nil, or_false] at hentry
  rcases hentry with rfl | rfl | rfl | rfl | rfl <;> exact ⟨by decide, by decide, by simp +decide⟩

/-- The entries of the directory, in the order of their paths. -/
def mixedEntries : List (Location × Node) :=
  [([], .directory Mode.directory 0), (["a\\b"], .file 0o4755#12 7 [3]), (["l"], .link "../a\\b" 9),
    (["s"], .directory 0o700#12 3), (["s", "f"], .file 0o640#12 (-5) [1, 2])]

/-- A file elsewhere does not count among the entries. -/
theorem eq_mixedEntries {mode : Mode} {entries : List (Location × Node)}
    (h : Lists root (mixed.set ["t"] (.file mode 0 [])) ⟨"/d"⟩ entries) : entries = mixedEntries := by
  obtain ⟨base, directory, hfind, -, hmem⟩ := h.complete
  have hbase : Lookup.find root (mixed.set ["t"] (.file mode 0 [])) true ⟨"/d"⟩ =
      .ok (["d"], .directory Mode.directory 0) := rfl
  have htop : (mixed.set ["t"] (.file mode 0 [])).lstat root ⟨"/d"⟩ =
      .ok (.directory Mode.directory 0) := rfl
  obtain ⟨rfl, rfl⟩ : base = ["d"] ∧ directory = .directory Mode.directory 0 := by
    simpa using hfind.symm.trans hbase
  refine eq_of_ordered h.ordered (by decide) fun ⟨names, node⟩ => ?_
  rw [hmem, htop, FileSystem.get?_set, mixed, FileSystem.get?_ofNodes, mixedEntries]
  cases names with
  | nil => simpa using eq_comm
  | cons first more =>
      simp only [FileSystem.nodeAt, List.singleton_append, List.cons.injEq, reduceCtorEq, false_and,
        true_and, ne_eq, not_false_eq_true, false_or, List.mem_cons, Prod.mk.injEq,
        List.not_mem_nil, or_false]
      clear * -
      grind

/-- Archiving the mixed directory writes five entries. -/
theorem writeTar_mixed :
    ((writeTar ⟨"/d"⟩ "./x" ⟨"/t"⟩ none).exec root mixed).1 = .ok 5 := by
  simp only [writeTar, writeEntries, sorted_eq_ite]
  decide +kernel

/-- A reader finds the nodes of the directory: a backslash has become a slash, and a time from before
the epoch is none. -/
theorem members_of_writeTar_mixed : ∃ fs' place mode archive ms,
    (writeTar ⟨"/d"⟩ "./x" ⟨"/t"⟩ none).exec root mixed = (.ok 5, fs') ∧
    Lookup.find root fs' true ⟨"/t"⟩ = .ok (place, .file mode 0 archive) ∧
    Tar.members archive = (ms, none) ∧
    List.Forall₂ Tar.Member.Says ms [
      ⟨⟨"./x"⟩, 0o755, 0, .directory⟩,
      ⟨⟨"./x/a/b"⟩, 0o4755, 7, .file [3]⟩,
      ⟨⟨"./x/l"⟩, 0o777, 9, .link ⟨"../a\\b"⟩⟩,
      ⟨⟨"./x/s"⟩, 0o700, 3, .directory⟩,
      ⟨⟨"./x/s/f"⟩, 0o640, 0, .file [1, 2]⟩] := by
  have hrun : (writeTar ⟨"/d"⟩ "./x" ⟨"/t"⟩ none).exec root mixed =
      (.ok 5, ((writeTar ⟨"/d"⟩ "./x" ⟨"/t"⟩ none).exec root mixed).2) :=
    Prod.ext writeTar_mixed rfl
  have hout : (Lookup.find root ((writeTar ⟨"/d"⟩ "./x" ⟨"/t"⟩ none).exec root mixed).2 true
      ⟨"/t"⟩).map Prod.fst = .ok ["t"] := by
    simp only [writeTar, writeEntries, sorted_eq_ite]
    decide +kernel
  obtain ⟨place, _, mode, archive, entries, ms, hfind, hlists, -, hmembers, hsays⟩ :=
    members_of_writeTar (FileSystem.wellFormed_ofNodes (by decide)) mixed_storable (by decide)
      (by decide) (by simp) hrun
  rw [hfind] at hout
  obtain rfl : place = ["t"] := Except.ok.inj hout
  obtain rfl := eq_mixedEntries hlists
  refine ⟨_, ["t"], mode, archive, ms, hrun, hfind, hmembers, ?_⟩
  exact List.forall₂_map_right_iff.2 hsays

/-! ## A name with a dot in front -/

/-- A directory with one file in it. -/
def small : FileSystem :=
  .ofNodes [(["d", "a"], .file Mode.file 7 [1]), (["d"], .directory Mode.directory 0)]

/-- The small directory is in good shape. -/
theorem small_wellFormed : small.WellFormed :=
  FileSystem.wellFormed_ofNodes (by decide)

/-- All times and sizes of the small directory can be stored. -/
theorem small_storable : small.Storable := by
  refine FileSystem.forall_ofNodes ⟨by decide, by decide, by simp⟩ fun entry hentry => ?_
  simp only [List.mem_cons, List.not_mem_nil, or_false] at hentry
  rcases hentry with rfl | rfl <;> exact ⟨by decide, by decide, by simp⟩

/-- Archiving the small directory writes two entries. -/
theorem writeTar_small :
    ((writeTar ⟨"/d"⟩ "./x" ⟨"/t"⟩ none).exec root small).1 = .ok 2 := by
  simp only [writeTar, writeEntries, sorted_eq_ite]
  decide +kernel

/-- A name that begins with a dot is not that of its path: the dot is missing. -/
theorem exists_name_without_dot : ∃ fs' place mode archive ms m,
    (writeTar ⟨"/d"⟩ "./x" ⟨"/t"⟩ none).exec root small = (.ok 2, fs') ∧
    Lookup.find root fs' true ⟨"/t"⟩ = .ok (place, .file mode 0 archive) ∧
    Tar.members archive = (ms, none) ∧ m ∈ ms ∧
    ∀ text, m.name = Text.Utf8.encode text →
      Path.components ⟨String.ofList text⟩ ≠ (Path.mk "./x").components := by
  have hrun : (writeTar ⟨"/d"⟩ "./x" ⟨"/t"⟩ none).exec root small =
      (.ok 2, ((writeTar ⟨"/d"⟩ "./x" ⟨"/t"⟩ none).exec root small).2) :=
    Prod.ext writeTar_small rfl
  obtain ⟨place, _, mode, entries, records, hfind, hlists, _, hfits, hwritten⟩ :=
    exists_items_of_writeTar small_wellFormed small_storable (by decide) (by decide) (by simp) hrun
  obtain ⟨ms, hmembers, hsays⟩ := exists_members_of_items hfits hwritten
  obtain ⟨node, htop⟩ := hlists.top
  obtain ⟨m, hm, hsaysTop⟩ := FileSystem.exists_of_forall₂ hsays.flip htop
  refine ⟨_, place, mode, _, ms, m, hrun, hfind, hmembers, hm, fun text hname => ?_⟩
  obtain ⟨text', hname', hstands⟩ := hsaysTop.name
  obtain rfl : text = text' := by
    have hsame := (Text.Utf8.decode_encode text).symm
    rw [← hname, hname', Text.Utf8.decode_encode] at hsame
    exact Option.some.inj hsame
  have hkept := hstands.short (show (Text.Utf8.ofString "./x").length < 100 by decide)
  rw [hkept]
  show Tar.Slot.kept false (Path.mk "./x").components ≠ (Path.mk "./x").components
  decide

end Archive

end RpmRelease
