import Mathlib.Data.List.Forall2
import Mathlib.Data.List.Induction
import Mathlib.Data.List.Nodup
import RpmRelease.FileSystem.Copy
import RpmRelease.Proofs.FileSystem.Lookup

/-!
# What a walk of a directory meets

In a well-formed file system every entry has a name that can stand between slashes, and stands in a
directory.  `FileSystem.tree` lists the nodes below a location by the names that lead to them, down
to some depth.  A walk of a directory all of whose paths can be looked at meets exactly this tree,
and each of its paths leads to the node that the names lead to.
-/

set_option autoImplicit false

namespace RpmRelease

namespace FileSystem

variable {caller : Caller} {fs : FileSystem}

/-- Entries have names and stand in directories. -/
structure WellFormed (fs : FileSystem) : Prop where
  isName : ∀ l node, fs.get? l = some node → ∀ name ∈ l, Path.IsName name
  parent : ∀ l name node, fs.get? (l ++ [name]) = some node →
    ∃ directory, fs.get? l = some directory ∧ directory.kind = .directory

/-! ## The entries of a directory -/

/-- What is below a location stands at a longer one. -/
theorem mem_below {l rest : Location} {node : Node} :
    (rest, node) ∈ fs.below l ↔ rest ≠ [] ∧ fs.get? (l ++ rest) = some node := by
  unfold below
  rw [List.mem_filterMap]
  constructor
  · rintro ⟨⟨place, other⟩, hmem, hsome⟩
    have hget := Std.ExtTreeMap.mem_toList_iff_getElem?_eq_some.1 hmem
    simp only at hsome
    split at hsome
    · next hbelow =>
        simp only [Bool.and_eq_true, bne_iff_ne, ne_eq] at hbelow
        obtain ⟨rest', rfl⟩ := List.isPrefixOf_iff_prefix.1 hbelow.1
        obtain ⟨rfl, rfl⟩ : rest' = rest ∧ other = node := by simpa using hsome
        refine ⟨?_, hget⟩
        rintro rfl
        exact hbelow.2 (List.append_nil l).symm
    · simp at hsome
  · rintro ⟨hne, hget⟩
    refine ⟨(l ++ rest, node), Std.ExtTreeMap.mem_toList_iff_getElem?_eq_some.2 hget, ?_⟩
    have hstarts : l.isPrefixOf (l ++ rest) = true :=
      List.isPrefixOf_iff_prefix.2 (List.prefix_append l rest)
    simp [hstarts, hne]

/-- The entries of a directory stand at the locations one name longer. -/
theorem mem_children {l : Location} {name : String} {node : Node} :
    (name, node) ∈ fs.children l ↔ fs.get? (l ++ [name]) = some node := by
  unfold children
  rw [List.mem_filterMap]
  constructor
  · rintro ⟨⟨rest, other⟩, hmem, hsome⟩
    split at hsome
    · next name' node' heq =>
        obtain ⟨rfl, rfl⟩ : name' = name ∧ node' = node := by simpa using hsome
        obtain ⟨rfl, rfl⟩ : rest = [name'] ∧ other = node' := by simpa using heq
        exact (mem_below.1 hmem).2
    · simp at hsome
  · intro hget
    exact ⟨([name], node), mem_below.2 ⟨by simp, hget⟩, rfl⟩

/-- The nodes below a location come in the order of all nodes. -/
theorem pairwise_below_of {l : Location} {R : Location → Location → Prop}
    (h : fs.nodes.toList.Pairwise fun a b =>
      ∀ rest rest', a.1 = l ++ rest → b.1 = l ++ rest' → R rest rest') :
    (fs.below l).Pairwise fun a b => R a.1 b.1 := by
  refine h.filterMap _ fun a a' hR b hb b' hb' => ?_
  simp only at hb hb'
  split at hb
  · next ha =>
      split at hb'
      · next ha' =>
          simp only [Bool.and_eq_true] at ha ha'
          obtain ⟨rest, hrest⟩ := List.isPrefixOf_iff_prefix.1 ha.1
          obtain ⟨rest', hrest'⟩ := List.isPrefixOf_iff_prefix.1 ha'.1
          obtain rfl := Option.some.inj hb
          obtain rfl := Option.some.inj hb'
          simpa [← hrest, ← hrest'] using hR rest rest' hrest.symm hrest'.symm
      · simp at hb'
  · simp at hb

/-- The entries of a directory come in the order of the nodes below it. -/
theorem pairwise_children_of {l : Location} {R : String → String → Prop}
    (h : (fs.below l).Pairwise fun a b =>
      ∀ name name', a.1 = [name] → b.1 = [name'] → R name name') :
    (fs.children l).Pairwise fun a b => R a.1 b.1 := by
  refine h.filterMap _ fun a a' hR b hb b' hb' => ?_
  split at hb
  · split at hb'
    · obtain rfl := Option.some.inj hb
      obtain rfl := Option.some.inj hb'
      exact hR _ _ rfl rfl
    · simp at hb'
  · simp at hb

/-- No two nodes below a location stand at the same place. -/
theorem pairwise_below (l : Location) : (fs.below l).Pairwise fun a b => a.1 ≠ b.1 := by
  refine pairwise_below_of (R := (· ≠ ·)) (fs.nodes.distinct_keys_toList.imp ?_)
  rintro a b hne rest _ ha hb rfl
  exact hne (by simp [ha, hb])

/-- No two entries of a directory have the same name. -/
theorem pairwise_children (l : Location) :
    (fs.children l).Pairwise fun a b => a.1 ≠ b.1 := by
  refine pairwise_children_of (R := (· ≠ ·)) ((pairwise_below l).imp ?_)
  rintro a b hne name _ ha hb rfl
  exact hne (ha.trans hb.symm)

/-! ## The tree below a location -/

/-- The nodes at and below a location, up to a depth, by the names that lead to them. -/
def tree (fs : FileSystem) : Nat → Location → List Location
  | 0, _ => [[]]
  | depth + 1, l => [] :: (fs.children l).flatMap fun (name, node) =>
      if node.kind == .directory then (tree fs depth (l ++ [name])).map (name :: ·) else [[name]]

/-- The part of a tree that an entry makes up. -/
def branch (fs : FileSystem) (depth : Nat) (l : Location) (entry : String × Node) :
    List Location :=
  if entry.2.kind == .directory then (fs.tree depth (l ++ [entry.1])).map (entry.1 :: ·)
  else [[entry.1]]

/-- The tree of a directory is its top and the branches of its entries. -/
theorem tree_succ (depth : Nat) (l : Location) :
    fs.tree (depth + 1) l = [] :: (fs.children l).flatMap (fs.branch depth l) := rfl

/-- What is on a branch is its entry, or in the tree of the directory that the entry is. -/
theorem exists_of_mem_branch {depth : Nat} {l rest : Location} {entry : String × Node}
    (h : rest ∈ fs.branch depth l entry) : ∃ more, rest = entry.1 :: more ∧
      (more = [] ∨ (entry.2.kind = .directory ∧ more ∈ fs.tree depth (l ++ [entry.1]))) := by
  rw [branch] at h
  split at h
  · next hkind =>
      obtain ⟨more, hmore, rfl⟩ := List.mem_map.1 h
      exact ⟨more, rfl, Or.inr ⟨by simpa using hkind, hmore⟩⟩
  · exact ⟨[], List.mem_singleton.1 h, Or.inl rfl⟩

/-- Only directories stand above something. -/
theorem WellFormed.directory_above (wf : fs.WellFormed) {l k : Location} {node : Node}
    (h : fs.get? k = some node) (hl : l <+: k) (hne : l ≠ k) :
    ∃ directory, fs.get? l = some directory ∧ directory.kind = .directory := by
  obtain ⟨rest, rfl⟩ := hl
  induction rest using List.reverseRecOn generalizing node with
  | nil => exact absurd (List.append_nil l).symm hne
  | append_singleton rest last ih =>
      rw [← List.append_assoc] at h
      obtain ⟨directory, hdirectory, hkind⟩ := wf.parent _ _ _ h
      by_cases hrest : rest = []
      · subst hrest
        exact ⟨directory, by rwa [List.append_nil] at hdirectory, hkind⟩
      · exact ih hdirectory (by simpa using hrest)

/-- Something stands below a directory only where all directories on the way stand. -/
theorem WellFormed.exists_of_append (wf : fs.WellFormed) {l : Location} {rest : Location}
    {name : String} {node : Node} (h : fs.get? (l ++ name :: rest) = some node) :
    ∃ entry, fs.get? (l ++ [name]) = some entry ∧ (rest ≠ [] → entry.kind = .directory) := by
  induction rest using List.reverseRecOn generalizing node with
  | nil => exact ⟨node, h, fun hne => absurd rfl hne⟩
  | append_singleton rest last ih =>
      have hlast : fs.get? ((l ++ name :: rest) ++ [last]) = some node := by
        simpa using h
      obtain ⟨directory, hdirectory, hkind⟩ := wf.parent _ _ _ hlast
      cases hrest : rest with
      | nil =>
          rw [hrest] at hdirectory
          exact ⟨directory, hdirectory, fun _ => hkind⟩
      | cons first more =>
          obtain ⟨entry, hentry, hentryKind⟩ := ih hdirectory
          exact ⟨entry, hentry, fun _ => hentryKind (by simp [hrest])⟩

/-- A tree holds exactly the nodes that are no deeper than its depth. -/
theorem mem_tree_iff (wf : fs.WellFormed) {depth : Nat} {l rest : Location} :
    rest ∈ fs.tree depth l ↔
      rest.length ≤ depth ∧ (rest ≠ [] → ∃ node, fs.get? (l ++ rest) = some node) := by
  -- on the depth; a tree goes on below directories, and only these have anything below them
  induction depth generalizing l rest with
  | zero =>
      constructor
      · intro h
        obtain rfl := List.mem_singleton.1 h
        simp
      · rintro ⟨hlength, _⟩
        obtain rfl := List.length_eq_zero_iff.1 (Nat.le_zero.1 hlength)
        exact List.mem_singleton_self []
  | succ depth ih =>
      rw [tree_succ, List.mem_cons, List.mem_flatMap]
      constructor
      · rintro (rfl | ⟨⟨name, node⟩, hentry, hmem⟩)
        · simp
        · obtain ⟨more, rfl, hmore⟩ := exists_of_mem_branch hmem
          have hget := mem_children.1 hentry
          rcases hmore with rfl | ⟨_, hmore⟩
          · exact ⟨by simp, fun _ => ⟨node, hget⟩⟩
          · obtain ⟨hlength, hexists⟩ := ih.1 hmore
            refine ⟨by simpa using hlength, fun _ => ?_⟩
            cases more with
            | nil => exact ⟨node, hget⟩
            | cons first more =>
                obtain ⟨other, hother⟩ := hexists (by simp)
                exact ⟨other, by simpa using hother⟩
      · rintro ⟨hlength, hexists⟩
        cases rest with
        | nil => exact Or.inl rfl
        | cons name more =>
            obtain ⟨node, hnode⟩ := hexists (by simp)
            obtain ⟨entry, hentry, hkind⟩ := wf.exists_of_append hnode
            refine Or.inr ⟨(name, entry), mem_children.2 hentry, ?_⟩
            cases more with
            | nil =>
                rw [branch]
                split
                · exact List.mem_map.2 ⟨[], ih.2 ⟨Nat.zero_le _, fun h => absurd rfl h⟩, rfl⟩
                · exact List.mem_singleton_self _
            | cons first more =>
                rw [branch, if_pos (by simpa using hkind (by simp))]
                refine List.mem_map.2 ⟨first :: more, ih.2 ⟨by simpa using hlength, fun _ => ?_⟩, rfl⟩
                exact ⟨node, by simpa using hnode⟩

/-- No node is listed twice. -/
theorem nodup_tree (depth : Nat) (l : Location) : (fs.tree depth l).Nodup := by
  induction depth generalizing l with
  | zero => exact List.nodup_singleton []
  | succ depth ih =>
      rw [tree_succ, List.nodup_cons]
      constructor
      · intro hmem
        obtain ⟨entry, _, hmem⟩ := List.mem_flatMap.1 hmem
        obtain ⟨more, hnil, _⟩ := exists_of_mem_branch hmem
        simp at hnil
      · rw [List.nodup_flatMap]
        constructor
        · rintro ⟨name, node⟩ _
          rw [branch]
          split
          · exact (ih _).map fun a b hab => (List.cons.inj hab).2
          · exact List.nodup_singleton _
        · refine (pairwise_children l).imp fun {a b} hne => ?_
          intro rest ha hb
          obtain ⟨more, rfl, _⟩ := exists_of_mem_branch ha
          obtain ⟨more', heq, _⟩ := exists_of_mem_branch hb
          exact hne (List.cons.inj heq).1

/-! ## Walking a directory -/

/-- The names below a path lead to a node, and so does the path; a link is found when links are not
followed. -/
def LeadsTo (caller : Caller) (fs : FileSystem) (p : Path) (l rest : Location) : Prop :=
  ∃ node, fs.get? (l ++ rest) = some node ∧
    Lookup.find caller fs false (p.along rest) = .ok (l ++ rest, node) ∧
    (node.kind ≠ .link → Lookup.find caller fs true (p.along rest) = .ok (l ++ rest, node))

/-- Results of a function on each item of a list, put together. -/
theorem forall₂_of_mapM {ε α β : Type} {f : α → Except ε β} {as : List α} {bs : List β}
    (h : as.mapM f = .ok bs) : List.Forall₂ (fun a b => f a = .ok b) as bs := by
  induction as generalizing bs with
  | nil =>
      rw [List.mapM_nil] at h
      obtain rfl : [] = bs := by simpa [pure, Except.pure] using h
      exact .nil
  | cons a as ih =>
      rw [List.mapM_cons] at h
      obtain ⟨b, hb, h⟩ := Run.of_bind_ok h
      obtain ⟨bs', hbs, h⟩ := Run.of_bind_ok h
      obtain rfl : b :: bs' = bs := by simpa [pure, Except.pure] using h
      exact .cons hb (ih hbs)

/-- A walk meets the directory that it begins with. -/
theorem mem_walkDirectory {depth : Nat} {p : Path} {paths : List Path}
    (h : walkDirectory caller fs depth p = .ok paths) : p ∈ paths := by
  cases depth with
  | zero =>
      obtain rfl : [p] = paths := by simpa [walkDirectory] using h
      exact List.mem_singleton_self p
  | succ depth =>
      rw [walkDirectory] at h
      obtain ⟨entries, _, h⟩ := Run.of_bind_ok h
      obtain ⟨below, _, h⟩ := Run.of_bind_ok h
      obtain rfl : p :: below.flatten = paths := by simpa [pure, Except.pure] using h
      exact List.mem_cons_self

/-- Reading a directory gives the entries that are there. -/
theorem eq_children_of_readDirectory {p : Path} {l : Location} {node : Node}
    {entries : List (String × Node)} (hfind : Lookup.find caller fs true p = .ok (l, node))
    (h : fs.readDirectory caller p = .ok entries) : entries = fs.children l := by
  unfold readDirectory at h
  rw [hfind] at h
  have h := (Run.of_check_ok (Run.of_check_ok h).2).2
  simpa [pure, Except.pure] using h.symm

/-- Where two lists are paired, an element of the first one has a partner. -/
theorem exists_of_forall₂ {α β : Type} {R : α → β → Prop} {as : List α} {bs : List β} {a : α}
    (h : List.Forall₂ R as bs) (ha : a ∈ as) : ∃ b ∈ bs, R a b := by
  induction h with
  | nil => simp at ha
  | @cons a' b as bs hab _ ih =>
      rcases List.mem_cons.1 ha with rfl | ha
      · exact ⟨b, List.mem_cons_self, hab⟩
      · obtain ⟨b', hb', hab'⟩ := ih ha
        exact ⟨b', List.mem_cons_of_mem b hb', hab'⟩

/-- Lists that are each the image of another one are so put together. -/
theorem flatten_eq_of_forall₂ {ε α β γ : Type} {f : α → Except ε (List β)} {g : α → List γ}
    {h : γ → β} {as : List α} {bs : List (List β)}
    (hall : List.Forall₂ (fun a b => f a = .ok b) as bs)
    (heq : ∀ a ∈ as, ∀ b ∈ bs, f a = .ok b → b = (g a).map h) :
    bs.flatten = (as.flatMap g).map h := by
  induction hall with
  | nil => rfl
  | @cons a b as bs hab _ ih =>
      have hrest := ih fun a' ha' b' hb' =>
        heq a' (List.mem_cons_of_mem a ha') b' (List.mem_cons_of_mem b hb')
      rw [List.flatten_cons, hrest, List.flatMap_cons, List.map_append,
        heq a List.mem_cons_self b List.mem_cons_self hab]

/-- What a walk does with an entry of a directory. -/
def walkEntry (caller : Caller) (fs : FileSystem) (depth : Nat) (p : Path)
    (entry : String × Node) : Except WalkError (List Path) :=
  if entry.2.kind == .directory then walkDirectory caller fs depth (p.join ⟨entry.1⟩)
  else .ok [p.join ⟨entry.1⟩]

/-- A walk meets the branch of an entry when it does so for the trees below directories. -/
theorem walkEntry_eq (wf : fs.WellFormed) {depth : Nat} {p : Path} {l : Location} {node : Node}
    {entry : String × Node} {paths : List Path}
    (ih : ∀ {p : Path} {l : Location} {node : Node} {paths : List Path},
      Lookup.find caller fs true p = .ok (l, node) →
      walkDirectory caller fs depth p = .ok paths →
      (∀ path ∈ paths, ∃ r, Lookup.find caller fs false path = .ok r) →
      paths = (fs.tree depth l).map p.along ∧
        ∀ rest ∈ fs.tree depth l, rest ≠ [] → LeadsTo caller fs p l rest)
    (hfind : Lookup.find caller fs true p = .ok (l, node)) (hentry : entry ∈ fs.children l)
    (hwalk : walkEntry caller fs depth p entry = .ok paths)
    (hreach : ∀ path ∈ paths, ∃ r, Lookup.find caller fs false path = .ok r) :
    paths = (fs.branch depth l entry).map p.along ∧
      ∀ rest ∈ fs.branch depth l entry, LeadsTo caller fs p l rest := by
  obtain ⟨name, entryNode⟩ := entry
  have hnode := mem_children.1 hentry
  have hname : Path.IsName name := wf.isName _ _ hnode name (by simp)
  have hchild : p.join ⟨name⟩ ∈ paths := by
    rw [walkEntry] at hwalk
    split at hwalk
    · exact mem_walkDirectory hwalk
    · obtain rfl := Except.ok.inj hwalk
      exact List.mem_singleton_self _
  -- the path of the entry is met, so it leads somewhere, and that can only be the entry
  obtain ⟨r, hr⟩ := hreach _ hchild
  obtain rfl := Lookup.eq_of_find_join hfind hname hnode (Or.inl rfl) hr
  have hself : LeadsTo caller fs p l [name] :=
    ⟨entryNode, hnode, hr, fun hkind => Lookup.find_follow hkind hr⟩
  by_cases hkind : (entryNode.kind == .directory) = true
  · rw [walkEntry, if_pos hkind] at hwalk
    rw [branch, if_pos hkind]
    have hfollow := Lookup.find_follow (by simp_all) hr
    obtain ⟨hpaths, hleads⟩ := ih hfollow hwalk hreach
    refine ⟨by rw [List.map_map]; exact hpaths, fun rest hrest => ?_⟩
    obtain ⟨more, hmore, rfl⟩ := List.mem_map.1 hrest
    cases more with
    | nil => exact hself
    | cons first more =>
        obtain ⟨found, hget, hfalse, htrue⟩ := hleads _ hmore (by simp)
        rw [List.append_assoc] at hget hfalse htrue
        exact ⟨found, hget, hfalse, htrue⟩
  · rw [walkEntry, if_neg hkind] at hwalk
    rw [branch, if_neg hkind]
    obtain rfl := Except.ok.inj hwalk
    refine ⟨rfl, fun rest hrest => ?_⟩
    obtain rfl := List.mem_singleton.1 hrest
    exact hself

/-- A walk of a directory whose paths can all be looked at meets the tree below its location, and
each path leads where its names lead. -/
theorem walkDirectory_eq (wf : fs.WellFormed) {depth : Nat} {p : Path} {l : Location} {node : Node}
    {paths : List Path} (hfind : Lookup.find caller fs true p = .ok (l, node))
    (hwalk : walkDirectory caller fs depth p = .ok paths)
    (hreach : ∀ path ∈ paths, ∃ r, Lookup.find caller fs false path = .ok r) :
    paths = (fs.tree depth l).map p.along ∧
      ∀ rest ∈ fs.tree depth l, rest ≠ [] → LeadsTo caller fs p l rest := by
  induction depth generalizing p l node paths with
  | zero =>
      obtain rfl : [p] = paths := by simpa [walkDirectory] using hwalk
      refine ⟨rfl, fun rest hrest hne => ?_⟩
      exact absurd (List.mem_singleton.1 hrest) hne
  | succ depth ih =>
      rw [walkDirectory] at hwalk
      obtain ⟨entries, hread, hwalk⟩ := Run.of_bind_ok hwalk
      obtain ⟨below, hbelow, hwalk⟩ := Run.of_bind_ok hwalk
      obtain rfl : p :: below.flatten = paths := by simpa [pure, Except.pure] using hwalk
      have hentries : entries = fs.children l := by
        refine eq_children_of_readDirectory hfind ?_
        cases hentries : fs.readDirectory caller p with
        | error e => simp [hentries, Except.mapError] at hread
        | ok found => simpa [hentries, Except.mapError] using hread
      -- the walks of the entries succeeded one by one, and each of them met its branch
      have hall : List.Forall₂ (fun entry out => walkEntry caller fs depth p entry = .ok out)
          (fs.children l) below := forall₂_of_mapM (hentries ▸ hbelow)
      have hentry : ∀ entry ∈ fs.children l, ∀ out ∈ below,
          walkEntry caller fs depth p entry = .ok out →
            out = (fs.branch depth l entry).map p.along ∧
              ∀ rest ∈ fs.branch depth l entry, LeadsTo caller fs p l rest := by
        intro entry hmem out hout hrun
        refine walkEntry_eq wf ih hfind hmem hrun fun path hpath => ?_
        exact hreach path (List.mem_cons_of_mem p (List.mem_flatten.2 ⟨out, hout, hpath⟩))
      constructor
      · rw [tree_succ, List.map_cons,
          flatten_eq_of_forall₂ hall fun entry hmem out hout hrun =>
            (hentry entry hmem out hout hrun).1]
        rfl
      · intro rest hrest hne
        rw [tree_succ] at hrest
        rcases List.mem_cons.1 hrest with rfl | hrest
        · exact absurd rfl hne
        · obtain ⟨entry, hmem, hrest⟩ := List.mem_flatMap.1 hrest
          obtain ⟨out, hout, hrun⟩ := exists_of_forall₂ hall hmem
          exact (hentry entry hmem out hout hrun).2 rest hrest

/-! ## Walking from the top -/

/-- With a node, all nodes on the way to it are there. -/
theorem WellFormed.exists_of_take (wf : fs.WellFormed) {l rest : Location} {node : Node} (n : Nat)
    (h : fs.get? (l ++ rest) = some node) (hne : rest.take n ≠ []) :
    ∃ other, fs.get? (l ++ rest.take n) = some other := by
  obtain ⟨front, name, hconcat⟩ := (List.eq_nil_or_concat' (rest.take n)).resolve_left hne
  have hrest : l ++ rest = l ++ front ++ name :: rest.drop n := by
    conv_lhs => rw [← List.take_append_drop n rest, hconcat]
    simp
  rw [hrest] at h
  obtain ⟨entry, hentry, _⟩ := wf.exists_of_append h
  refine ⟨entry, ?_⟩
  rw [hconcat, ← List.append_assoc]
  exact hentry

/-- What a walk from a path to a directory meets: the top, and everything below the directory. -/
structure Meets (caller : Caller) (fs : FileSystem) (p : Path) (l : Location)
    (names : List Location) : Prop where
  nodup : names.Nodup
  mem_iff : ∀ rest, rest ∈ names ↔ (rest ≠ [] → ∃ node, fs.get? (l ++ rest) = some node)
  leads : ∀ rest ∈ names, rest ≠ [] → LeadsTo caller fs p l rest

/-- What a walk meets is reached by proper names. -/
theorem Meets.isName (wf : fs.WellFormed) {p : Path} {l : Location} {names : List Location}
    (h : Meets caller fs p l names) : ∀ rest ∈ names, ∀ name ∈ rest, Path.IsName name := by
  intro rest hrest name hname
  obtain ⟨node, hnode⟩ := (h.mem_iff rest).1 hrest (List.ne_nil_of_mem hname)
  exact wf.isName _ node hnode name (List.mem_append_right l hname)

/-- A walk may meet the same in another order. -/
theorem Meets.perm {p : Path} {l : Location} {names others : List Location}
    (h : Meets caller fs p l names) (hperm : others.Perm names) : Meets caller fs p l others where
  nodup := hperm.nodup_iff.2 h.nodup
  mem_iff := fun rest => hperm.mem_iff.trans (h.mem_iff rest)
  leads := fun rest hrest => h.leads rest (hperm.mem_iff.1 hrest)

/-- What is seen at the end of names is what stands there. -/
theorem LeadsTo.get?_of_lstat {p : Path} {l rest : Location} {node : Node}
    (h : LeadsTo caller fs p l rest) (hseen : fs.lstat caller (p.along rest) = .ok node) :
    fs.get? (l ++ rest) = some node := by
  obtain ⟨other, hother, hfind, _⟩ := h
  obtain ⟨k, hfind'⟩ := Lookup.lstat_eq_ok_iff.1 hseen
  obtain ⟨_, rfl⟩ : l ++ rest = k ∧ other = node := by
    simpa using hfind.symm.trans hfind'
  exact hother

/-- Fewer names lead to a node than a path can be long. -/
theorem length_lt_of_find {p : Path} {names : Location} {follow : Bool} {r : Location × Node}
    (hnames : ∀ name ∈ names, Path.IsName name)
    (h : Lookup.find caller fs follow (p.along names) = .ok r) : names.length < Lookup.maxPath := by
  have htext := (Lookup.find_eq_ok_iff.1 (show _ = Except.ok (r.1, r.2) from h)).1
  have hsize := (Lookup.of_checkText_ok htext).2
  have halong := Path.size_along (p := p) hnames
  have hlength := Path.length_le_sizes hnames
  omega

/-- A walk from a path to a directory walks that directory, also when the path leads there through a
link. -/
theorem walkDirectory_of_walk {p : Path} {l : Location} {node : Node} {paths : List Path}
    (hfind : Lookup.find caller fs true p = .ok (l, node)) (hkind : node.kind = .directory)
    (hwalk : fs.walk caller p = .ok paths) :
    walkDirectory caller fs Lookup.maxPath p = .ok paths := by
  obtain ⟨top, htop, hwalk⟩ := Run.of_bind_ok hwalk
  obtain ⟨k, hfalse⟩ : ∃ k, Lookup.find caller fs false p = .ok (k, top) := by
    cases htop' : fs.lstat caller p with
    | error e => simp [htop', Except.mapError] at htop
    | ok node' =>
        obtain rfl : node' = top := by simpa [htop', Except.mapError] using htop
        exact Lookup.lstat_eq_ok_iff.1 htop'
  have hstat : fs.stat caller p = .ok node := by
    rw [stat, hfind]
    rfl
  cases htopKind : top.kind with
  | directory =>
      rw [htopKind] at hwalk
      exact hwalk
  | link =>
      rw [htopKind, hstat] at hwalk
      simpa [Except.mapError, bind, Except.bind, hkind] using hwalk
  | file =>
      have hfollow := Lookup.find_follow (by simp [htopKind]) hfalse
      rw [hfind] at hfollow
      obtain ⟨rfl, rfl⟩ : l = k ∧ node = top := by simpa using hfollow
      simp [hkind] at htopKind

/-- A walk from a path to a directory, all of whose paths can be looked at, meets everything below
the directory. -/
theorem exists_meets_of_walk (wf : fs.WellFormed) {p : Path} {l : Location} {node : Node}
    {paths : List Path} (hfind : Lookup.find caller fs true p = .ok (l, node))
    (hkind : node.kind = .directory) (hwalk : fs.walk caller p = .ok paths)
    (hreach : ∀ path ∈ paths, ∃ r, Lookup.find caller fs false path = .ok r) :
    ∃ names, paths = names.map p.along ∧ Meets caller fs p l names := by
  have hdirectory := walkDirectory_of_walk hfind hkind hwalk
  obtain ⟨hpaths, hleads⟩ := walkDirectory_eq wf hfind hdirectory hreach
  refine ⟨fs.tree Lookup.maxPath l, hpaths, nodup_tree _ _, fun rest => ?_, hleads⟩
  rw [mem_tree_iff wf]
  refine ⟨fun h => h.2, fun hexists => ⟨?_, hexists⟩⟩
  by_contra hdeep
  -- the names down to the greatest depth would make a path that cannot be looked at
  have hne : rest ≠ [] := by
    rintro rfl
    exact hdeep (Nat.zero_le _)
  obtain ⟨deep, hdeepNode⟩ := hexists hne
  have hlength : (rest.take Lookup.maxPath).length = Lookup.maxPath := by
    rw [List.length_take]
    omega
  have htake : rest.take Lookup.maxPath ∈ fs.tree Lookup.maxPath l :=
    (mem_tree_iff wf).2 ⟨Nat.le_of_eq hlength, wf.exists_of_take _ hdeepNode⟩
  have hnames : ∀ name ∈ rest.take Lookup.maxPath, Path.IsName name := fun name hname =>
    wf.isName _ _ hdeepNode name (List.mem_append_right l (List.mem_of_mem_take hname))
  obtain ⟨r, hr⟩ := hreach _ (hpaths ▸ List.mem_map_of_mem htake)
  have hshort := length_lt_of_find hnames hr
  omega

end FileSystem

end RpmRelease
