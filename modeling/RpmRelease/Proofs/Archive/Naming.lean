import RpmRelease.Proofs.Archive.Replacing
import RpmRelease.Proofs.Path.Moves
import RpmRelease.Tar.Unpack

/-!
# The names in an archive

A backslash in the name of a staged file becomes a slash in the archive, and a slash there ends a name.
So an archive knows a node by the pieces of its path, cut at slashes and backslashes alike: two nodes
have the same name in the archive exactly if their pieces are the same.  Without backslashes the pieces
are the names themselves, no two nodes share a name, and whoever unpacks the archive gets all of them.
-/

set_option autoImplicit false

namespace RpmRelease

namespace Archive

open RpmRelease.Path (moves added)

/-! ## Pieces -/

/-- The pieces of a path for an archive: what lies between slashes and backslashes, apart from pieces
that are empty or a dot. -/
def pieces (rest : String) : List (List Char) :=
  (Text.splitWhen (fun c => c == '/' || c == '\\') rest.toList).filter fun piece =>
    !piece.isEmpty && piece != ['.']

/-- Backslashes that have become slashes cut like slashes. -/
theorem splitWhen_forward (cs : List Char) :
    Text.splitWhen (· == '/') (cs.map forward) =
      Text.splitWhen (fun c => c == '/' || c == '\\') cs := by
  induction cs with
  | nil => rfl
  | cons c cs ih =>
      rw [List.map_cons, Text.splitWhen, Text.splitWhen, ih, forward]
      by_cases hslash : c = '\\'
      · subst hslash
        rfl
      · simp [hslash]

/-- Pieces that are dropped add no moves. -/
theorem flatMap_added_pieces (rest : String) :
    (Text.splitWhen (fun c => c == '/' || c == '\\') rest.toList).flatMap added =
      (pieces rest).flatMap added := by
  rw [pieces]
  induction Text.splitWhen (fun c => c == '/' || c == '\\') rest.toList with
  | nil => rfl
  | cons piece more ih =>
      rw [List.flatMap_cons, List.filter_cons, ih]
      split
      · rw [List.flatMap_cons]
      · next hdropped =>
          have hadded : added piece = [] := by
            rw [added, if_pos (by simpa [Classical.or_iff_not_imp_left] using hdropped)]
          rw [hadded, List.nil_append]

/-- The moves of a name in an archive: those of the top, and one for each piece. -/
theorem moves_nodeName (top : String) (names : Location) :
    (nodeName top names).moves = moves ⟨top⟩ ++ (pieces (Path.slashed names)).flatMap added := by
  cases names with
  | nil => exact (List.append_nil _).symm
  | cons name names =>
      have htext : nodeName top (name :: names) = ⟨String.ofList (top.toList ++ '/' ::
          (Path.slashed (name :: names)).toList.map forward)⟩ := by
        rw [nodeName, Path.mk.injEq, ← String.toList_inj]
        simp
      rw [htext, Path.moves_append_slash, splitWhen_forward, flatMap_added_pieces,
        String.ofList_toList]

/-- The pieces of a path can be read off the moves that they add. -/
theorem map_chars_pieces (rest : String) :
    ((pieces rest).flatMap added).map Path.Component.chars = pieces rest := by
  have hkept : ∀ piece ∈ pieces rest, piece ≠ [] ∧ piece ≠ ['.'] := fun piece hpiece => by
    simpa using (List.mem_filter.1 hpiece).2
  rw [List.map_flatMap]
  conv_rhs => rw [← List.flatMap_singleton' (pieces rest)]
  exact List.flatMap_congr fun piece hpiece =>
    Path.map_chars_added (hkept piece hpiece).1 (hkept piece hpiece).2

/-- Names in an archive make the same moves exactly if their pieces are the same. -/
theorem moves_nodeName_inj {top : String} {names others : Location} :
    (nodeName top names).moves = (nodeName top others).moves ↔
      pieces (Path.slashed names) = pieces (Path.slashed others) := by
  rw [moves_nodeName, moves_nodeName, List.append_cancel_left_eq]
  constructor
  · intro h
    rw [← map_chars_pieces (Path.slashed names), h, map_chars_pieces]
  · intro h
    rw [h]

/-- A character of no name is not in the path that the names make up, unless it is the slash. -/
theorem not_mem_slashed {c : Char} (hc : c ≠ '/') {names : Location}
    (hnames : ∀ name ∈ names, c ∉ name.toList) : c ∉ (Path.slashed names).toList := by
  induction names with
  | nil => exact List.not_mem_nil
  | cons name names ih =>
      have hname := hnames name List.mem_cons_self
      have hrest := ih fun other hother => hnames other (List.mem_cons_of_mem name hother)
      by_cases hnil : names = []
      · rwa [hnil, Path.slashed_singleton]
      · simp [Path.slashed_cons name hnil, hname, hrest, hc]

/-- Without backslashes the pieces of a path are the names on it. -/
theorem pieces_slashed {names : Location} (hnames : ∀ name ∈ names, Path.IsName name)
    (hplain : ∀ name ∈ names, '\\' ∉ name.toList) :
    pieces (Path.slashed names) = names.map String.toList := by
  have hkept : ∀ name ∈ names, (!name.toList.isEmpty && name.toList != ['.']) = true := by
    intro name hname
    have hne := (hnames name hname).chars_ne_nil
    have hdot := (hnames name hname).chars_ne_current
    simp [hdot, List.isEmpty_iff.not.2 hne]
  by_cases hnil : names = []
  · subst hnil
    rfl
  · have hforward : (Path.slashed names).toList.map forward = (Path.slashed names).toList := by
      have hnone : '\\' ∉ (Path.slashed names).toList := not_mem_slashed (by decide) hplain
      conv_rhs => rw [← List.map_id (Path.slashed names).toList]
      refine List.map_congr_left fun c hc => if_neg ?_
      rintro rfl
      exact hnone hc
    rw [pieces, ← splitWhen_forward, hforward, Path.splitWhen_slashed hnil hnames,
      List.filter_eq_self]
    intro piece hpiece
    obtain ⟨name, hname, rfl⟩ := List.mem_map.1 hpiece
    exact hkept name hname

end Archive

/-- Different names lead to different paths. -/
theorem Path.along_inj {p : Path} {names others : List String} (hp : p.text ≠ "")
    (hnames : ∀ name ∈ names, IsName name) (hothers : ∀ name ∈ others, IsName name)
    (h : p.along names = p.along others) : names = others := by
  have hcomponents := congrArg components h
  rw [(components_along hp hnames).1, (components_along hp hothers).1,
    List.append_cancel_left_eq] at hcomponents
  exact (List.map_inj_right fun _ _ => Component.normal.inj).1 hcomponents

/-! ## Members -/

namespace Tar

/-- The path that a member is unpacked to, below wherever it is unpacked. -/
def Member.path (m : Member) : Path :=
  ⟨Text.Utf8.toString m.name⟩

/-- A member makes the same moves as the item that it tells of. -/
theorem Member.Says.moves_path {m : Member} {item : Item} (h : m.Says item) :
    m.path.moves = item.path.moves := by
  obtain ⟨text, hname, hstands⟩ := h.name
  have hpath : m.path = ⟨String.ofList text⟩ := by
    rw [Member.path, hname, Text.Utf8.toString, Text.Utf8.decodeLossy_encode]
  rw [hpath, Path.moves, Path.moves]
  rcases hstands.components with heq | heq
  · rw [heq]
  · rw [heq]
    rfl

/-- What is left at a path when members are unpacked below a destination one after the other: the last
one that goes there, since each takes the place of those before it. -/
def left? (destination path : Path) (ms : List Member) : Option Member :=
  (ms.filter fun m => Member.place? destination m.path == some path).getLast?

/-- A path that only moves to names leads along them. -/
theorem place?_of_moves {destination path : Path} {names : Location}
    (h : path.moves = names.map .normal) :
    Member.place? destination path = some (destination.along names) := by
  have hdown : .parent ∉ path.components := fun hparent => by
    have hmem : Path.Component.parent ∈ path.moves := List.mem_filter.2 ⟨hparent, rfl⟩
    rw [h] at hmem
    simp at hmem
  rw [Member.place?, if_neg (by simpa using hdown), ← Path.foldl_join_normal, ← h]
  rfl

/-- Where members are all unpacked to different paths, each is left. -/
theorem left?_eq_some {destination path : Path} {m : Member} {ms : List Member} (hm : m ∈ ms)
    (hdistinct : ms.Pairwise fun a b =>
      Member.place? destination a.path ≠ Member.place? destination b.path)
    (hplace : Member.place? destination m.path = some path) : left? destination path ms = some m := by
  obtain ⟨before, later, rfl⟩ := List.append_of_mem hm
  have hlater : ∀ other ∈ later, Member.place? destination other.path ≠ some path := by
    intro other hother
    rw [← hplace]
    exact ((List.pairwise_cons.1 (List.pairwise_append.1 hdistinct).2.1).1 other hother).symm
  have hnone : later.filter (fun other => Member.place? destination other.path == some path) = [] :=
    List.filter_eq_nil_iff.2 fun other hother => by simpa using hlater other hother
  rw [left?, List.filter_append, List.filter_cons_of_pos (by simpa using hplace), hnone,
    List.getLast?_concat]

end Tar

namespace Archive

open RpmRelease.Path (moves)

variable {caller : Caller} {fs : FileSystem}

/-! ## Nodes and their names -/

/-- The entries of a staging directory are found by proper names, when the tar file stands at a place
of proper names. -/
theorem Lists.isName {place : Location} {file : Node} {staging : Path}
    {entries : List (Location × Node)} (wf : fs.WellFormed)
    (hplace : ∀ name ∈ place, Path.IsName name) (h : Lists caller (fs.set place file) staging entries)
    {entry : Location × Node} (hentry : entry ∈ entries) : ∀ name ∈ entry.1, Path.IsName name := by
  obtain ⟨base, directory, -, -, hcomplete⟩ := h.complete
  obtain ⟨hnil, -⟩ | ⟨-, hnode⟩ := (hcomplete entry.1 entry.2).1 hentry
  · simp [hnil]
  · intro name hname
    rw [FileSystem.get?_set] at hnode
    have hmem : name ∈ base ++ entry.1 := List.mem_append_right base hname
    split at hnode
    · next heq => exact hplace name (heq ▸ hmem)
    · exact wf.isName _ _ hnode name hmem

/-- Two nodes have the same name in an archive exactly if their pieces are the same. -/
theorem moves_path_eq_iff {top : String} {fixed : Option Nat} {a b : Tar.Member}
    {entry other : Location × Node} (ha : a.Says (nodeItem top fixed entry.1 entry.2))
    (hb : b.Says (nodeItem top fixed other.1 other.2)) :
    a.path.moves = b.path.moves ↔
      pieces (Path.slashed entry.1) = pieces (Path.slashed other.1) := by
  rw [ha.moves_path, hb.moves_path]
  exact moves_nodeName_inj

/-- A node without backslashes is unpacked to its own path, below the top. -/
theorem place?_eq {top : String} {fixed : Option Nat} {m : Tar.Member} {entry : Location × Node}
    (htold : m.Says (nodeItem top fixed entry.1 entry.2))
    (hnames : ∀ name ∈ entry.1, Path.IsName name) (hplain : ∀ name ∈ entry.1, '\\' ∉ name.toList)
    (htop : .parent ∉ (Path.mk top).components) (destination : Path) :
    Tar.Member.place? destination m.path =
      some (destination.along ((Path.mk top).names ++ entry.1)) := by
  have hsteps : (pieces (Path.slashed entry.1)).flatMap Path.added = entry.1.map .normal := by
    rw [pieces_slashed hnames hplain, List.flatMap_map, List.map_eq_flatMap]
    exact List.flatMap_congr fun name hname =>
      (show Path.Component.Inner (.normal name) from .inr ⟨name, rfl, hnames name hname⟩).added_chars.2.2.2
  refine Tar.place?_of_moves ?_
  rw [htold.moves_path, List.map_append, ← Path.moves_eq_names htop, ← hsteps]
  exact moves_nodeName top _

/-- Entries without backslashes differ in their pieces. -/
theorem Lists.pairwise_pieces {staging : Path} {entries : List (Location × Node)}
    (h : Lists caller fs staging entries)
    (hnames : ∀ entry ∈ entries, ∀ name ∈ entry.1, Path.IsName name)
    (hplain : ∀ entry ∈ entries, ∀ name ∈ entry.1, '\\' ∉ name.toList) :
    entries.Pairwise fun a b => pieces (Path.slashed a.1) ≠ pieces (Path.slashed b.1) := by
  refine h.ordered.imp_of_mem fun {a b} ha hb hlt heq => ?_
  rw [pieces_slashed (hnames a ha) (hplain a ha), pieces_slashed (hnames b hb) (hplain b hb)] at heq
  have hsame : a.1 = b.1 := (List.map_inj_right fun _ _ => String.toList_inj.1).1 heq
  rw [hsame] at hlt
  exact Std.lt_irrefl hlt

/-- What holds of any two entries holds of their members. -/
theorem pairwise_of_forall₂ {α β : Type} {T : α → β → Prop} {R : α → α → Prop} {S : β → β → Prop}
    (himp : ∀ {a a' b b'}, T a b → T a' b' → S b b' → R a a') {as : List α} {bs : List β}
    (h : List.Forall₂ T as bs) (hbs : bs.Pairwise S) : as.Pairwise R := by
  induction h with
  | nil => exact .nil
  | cons hab hrest ih =>
      obtain ⟨hfirst, hpairs⟩ := List.pairwise_cons.1 hbs
      refine .cons (fun a' ha' => ?_) (ih hpairs)
      obtain ⟨b', hb', hT⟩ := FileSystem.exists_of_forall₂ hrest ha'
      exact himp hab hT (hfirst b' hb')

/-- Unpacked anywhere, each of some entries without backslashes is left at its own path. -/
theorem left?_of_says {top : String} {fixed : Option Nat} {ms : List Tar.Member}
    {entries : List (Location × Node)}
    (htold : List.Forall₂ (fun m entry => m.Says (nodeItem top fixed entry.1 entry.2)) ms entries)
    (hnames : ∀ entry ∈ entries, ∀ name ∈ entry.1, Path.IsName name)
    (hplain : ∀ entry ∈ entries, ∀ name ∈ entry.1, '\\' ∉ name.toList)
    (hpieces : entries.Pairwise fun a b => pieces (Path.slashed a.1) ≠ pieces (Path.slashed b.1))
    (hdown : .parent ∉ (Path.mk top).components) {destination : Path} (htext : destination.text ≠ "")
    {a : Tar.Member × Location × Node} (ha : a ∈ ms.zip entries) :
    Tar.left? destination (destination.along ((Path.mk top).names ++ a.2.1)) ms = some a.1 := by
  have hplaced : List.Forall₂ (fun m entry => (∀ name ∈ entry.1, Path.IsName name) ∧
      Tar.Member.place? destination m.path =
        some (destination.along ((Path.mk top).names ++ entry.1))) ms entries := by
    refine List.forall₂_iff_zip.2 ⟨htold.length_eq, fun {m entry} hmem => ?_⟩
    have hentry := (List.of_mem_zip hmem).2
    exact ⟨hnames _ hentry,
      place?_eq ((List.forall₂_iff_zip.1 htold).2 hmem) (hnames _ hentry) (hplain _ hentry) hdown
        destination⟩
  have hdistinct : ms.Pairwise fun m n =>
      Tar.Member.place? destination m.path ≠ Tar.Member.place? destination n.path := by
    refine pairwise_of_forall₂ ?_ hplaced hpieces
    rintro m n entry other ⟨hentry, hm⟩ ⟨hother, hn⟩ hne heq
    rw [hm, hn, Option.some_inj] at heq
    have hall {names : Location} (hrest : ∀ name ∈ names, Path.IsName name) :
        ∀ name ∈ (Path.mk top).names ++ names, Path.IsName name := fun name hname =>
      (List.mem_append.1 hname).elim Path.isName_of_mem_names (hrest name)
    have hsame := Path.along_inj htext (hall hentry) (hall hother) heq
    rw [List.append_cancel_left_eq] at hsame
    exact hne (by rw [hsame])
  exact Tar.left?_eq_some (List.of_mem_zip ha).1 hdistinct ((List.forall₂_iff_zip.1 hplaced).2 ha).2

/-- Two nodes have the same name in the archive exactly if their pieces are the same.  Without backslashes
in the names that were staged, all nodes have names of their own; and unpacked anywhere, each is left at
its own path, below the top. -/
theorem names_of_writeTar {staging out : Path} {top : String} {fixed : Option Nat} {k : Nat}
    {fs' : FileSystem} (wf : fs.WellFormed) (hstorable : fs.Storable)
    (hnow : caller.now < 2 ^ 63) (htop : top.utf8ByteSize < 2 ^ 63)
    (hfixed : ∀ n, fixed = some n → n < 2 ^ 64)
    (h : (writeTar staging top out fixed).exec caller fs = (.ok k, fs')) :
    ∃ place mode mode' archive entries ms,
      Lookup.find caller fs' true out = .ok (place, .file mode' caller.now archive) ∧
      Lists caller (fs.set place (.file mode caller.now [])) staging entries ∧
      Tar.members archive = (ms, none) ∧
      List.Forall₂ (fun m entry => m.Says (nodeItem top fixed entry.1 entry.2)) ms entries ∧
      (∀ a ∈ ms.zip entries, ∀ b ∈ ms.zip entries, a.1.path.moves = b.1.path.moves ↔
        pieces (Path.slashed a.2.1) = pieces (Path.slashed b.2.1)) ∧
      ((∀ entry ∈ entries, ∀ name ∈ entry.1, '\\' ∉ name.toList) →
        ms.Pairwise (fun a b => a.path.moves ≠ b.path.moves) ∧
        (.parent ∉ (Path.mk top).components → ∀ destination, destination.text ≠ "" →
          ∀ a ∈ ms.zip entries, Tar.left? destination
            (destination.along ((Path.mk top).names ++ a.2.1)) ms = some a.1)) := by
  obtain ⟨place, mode, mode', entries, records, hfind, hlists, hcount, hfits, hwritten⟩ :=
    exists_items_of_writeTar wf hstorable hnow htop hfixed h
  obtain ⟨ms, hmembers, htold⟩ := exists_members_of_items hfits hwritten
  obtain ⟨content, l, hfilled⟩ := exists_filled_of_writeTar wf h
  have hplace : ∀ name ∈ place, Path.IsName name :=
    hfilled.wellFormed.isName _ _ (Lookup.get?_of_find hfind)
  have hpair : ∀ a ∈ ms.zip entries, a.1.Says (nodeItem top fixed a.2.1 a.2.2) := fun a ha =>
    (List.forall₂_iff_zip.1 htold).2 ha
  refine ⟨place, mode, mode', _, entries, ms, hfind, hlists, hmembers, htold,
    fun a ha b hb => moves_path_eq_iff (hpair a ha) (hpair b hb), fun hplain => ?_⟩
  have hnames : ∀ entry ∈ entries, ∀ name ∈ entry.1, Path.IsName name := fun entry hentry =>
    hlists.isName wf hplace hentry
  have hpieces := hlists.pairwise_pieces hnames hplain
  refine ⟨pairwise_of_forall₂ (fun ha hb hne heq => hne ((moves_path_eq_iff ha hb).1 heq)) htold
    hpieces, fun hdown destination htext a ha => ?_⟩
  exact left?_of_says htold hnames hplain hpieces hdown htext ha

/-- The nodes of the small file system have names of their own. -/
theorem names_of_writeTar_small : ∃ fs' place mode archive ms,
    (writeTar ⟨"/d"⟩ "./x" ⟨"/t"⟩ none).exec root small = (.ok 2, fs') ∧
    Lookup.find root fs' true ⟨"/t"⟩ = .ok (place, .file mode 0 archive) ∧
    Tar.members archive = (ms, none) ∧ ms.Pairwise fun a b => a.path.moves ≠ b.path.moves := by
  have hrun : (writeTar ⟨"/d"⟩ "./x" ⟨"/t"⟩ none).exec root small =
      (.ok 2, ((writeTar ⟨"/d"⟩ "./x" ⟨"/t"⟩ none).exec root small).2) :=
    Prod.ext writeTar_small rfl
  have hout : (Lookup.find root ((writeTar ⟨"/d"⟩ "./x" ⟨"/t"⟩ none).exec root small).2 true
      ⟨"/t"⟩).map Prod.fst = .ok ["t"] := by
    simp only [writeTar, writeEntries, sorted_eq_ite]
    decide +kernel
  obtain ⟨place, _, mode, archive, entries, ms, hfind, hlists, hmembers, -, -, hplain⟩ :=
    names_of_writeTar small_wellFormed small_storable (by decide) (by decide) (by simp) hrun
  rw [hfind] at hout
  obtain rfl : place = ["t"] := Except.ok.inj hout
  refine ⟨_, ["t"], mode, archive, ms, hrun, hfind, hmembers, (hplain ?_).1⟩
  obtain ⟨base, -, -, -, hcomplete⟩ := hlists.complete
  intro entry hentry name hname
  have hsmall : ∀ l node, small.get? l = some node → ∀ name ∈ l, '\\' ∉ name.toList :=
    FileSystem.forall_ofNodes (by simp) (by decide)
  obtain ⟨hnil, -⟩ | ⟨-, hnode⟩ := (hcomplete entry.1 entry.2).1 hentry
  · simp [hnil] at hname
  · have hmem : name ∈ base ++ entry.1 := List.mem_append_right base hname
    rw [FileSystem.get?_set] at hnode
    split at hnode
    · next heq =>
        rw [← heq, List.mem_singleton] at hmem
        exact hmem ▸ (by decide)
    · exact hsmall _ _ hnode name hmem

/-- A directory with a file, and a file beside it that is called like the way to the first. -/
def backslashTree : FileSystem :=
  .ofNodes [
    (["d", "a", "b"], .file Mode.file 0 [1]),
    (["d", "a\\b"], .file Mode.file 0 [2]),
    (["d", "a"], .directory Mode.directory 0),
    (["d"], .directory Mode.directory 0)]

/-- A backslash makes two files of one name: whoever unpacks this archive gets one of them. -/
theorem writeTar_same_name :
    ((writeTar ⟨"/d"⟩ "x" ⟨"/t"⟩ none).exec root backslashTree).1 = .ok 4 ∧
      (((writeTar ⟨"/d"⟩ "x" ⟨"/t"⟩ none).exec root backslashTree).2.read root ⟨"/t"⟩).map
        (fun archive => (Tar.members archive).1.map fun m => (m.path, m.content.1)) =
          .ok [(⟨"x"⟩, []), (⟨"x/a"⟩, []), (⟨"x/a/b"⟩, [1]), (⟨"x/a/b"⟩, [2])] := by
  simp only [writeTar, writeEntries, sorted_eq_ite]
  decide +kernel

end Archive

end RpmRelease
