import RpmRelease.Proofs.FileSystem.Course
import RpmRelease.Proofs.FileSystem.Erasing
import RpmRelease.Proofs.FileSystem.Tree

/-!
# Removing whole trees

`cut` takes away what stands at a location and everything below it, `clear` only what is below.
Emptying a directory, if it succeeds, clears its location, and removing a path cuts the location of its
entry, whatever stood there.  A directory can be emptied when all directories in it are open to the
caller.
-/

set_option autoImplicit false

namespace RpmRelease

namespace FileSystem

variable {caller : Caller} {fs fs' : FileSystem} {k l : Location}

/-! ## Parts of a file system -/

/-- The part of a file system at some locations. -/
def keep (fs : FileSystem) (p : Location → Bool) : FileSystem :=
  ⟨fs.nodes.filter fun l _ => p l⟩

/-- What is kept stands where it stood, and nothing else does. -/
theorem get?_keep (fs : FileSystem) (p : Location → Bool) (l : Location) :
    (fs.keep p).get? l = if p l then fs.get? l else none := by
  rw [get?, keep, Std.ExtTreeMap.getElem?_filter', ← get?]
  cases fs.get? l with
  | none => simp
  | some node => cases p l <;> simp

/-- Without a location and everything below it. -/
def cut (fs : FileSystem) (k : Location) : FileSystem :=
  fs.keep fun l => !decide (k <+: l)

/-- Without everything below a location. -/
def clear (fs : FileSystem) (k : Location) : FileSystem :=
  fs.keep fun l => !decide (k <+: l) || l == k

/-- Nothing stands at or below a location that was cut, and all else stands where it stood. -/
theorem get?_cut (fs : FileSystem) (k l : Location) :
    (fs.cut k).get? l = if k <+: l then none else fs.get? l := by
  rw [cut, get?_keep]
  by_cases h : k <+: l
  · rw [if_pos h, if_neg (by simpa using h)]
  · rw [if_neg h, if_pos (by simpa using h)]

/-- Nothing stands below a location that was cleared, and all else stands where it stood. -/
theorem get?_clear (fs : FileSystem) (k l : Location) :
    (fs.clear k).get? l = if k <+: l ∧ l ≠ k then none else fs.get? l := by
  rw [clear, get?_keep]
  by_cases h : k <+: l ∧ l ≠ k
  · rw [if_pos h, if_neg (by simpa using h)]
  · rw [if_neg h, if_pos (by simpa [or_iff_not_imp_left] using h)]

/-- Cutting only takes nodes away. -/
theorem cut_within (fs : FileSystem) (k : Location) : (fs.cut k).Within fs := by
  intro l node hnode
  rw [get?_cut] at hnode
  split at hnode
  · simp at hnode
  · exact hnode

/-- Clearing only takes nodes away. -/
theorem clear_within (fs : FileSystem) (k : Location) : (fs.clear k).Within fs := by
  intro l node hnode
  rw [get?_clear] at hnode
  split at hnode
  · simp at hnode
  · exact hnode

/-- Cutting takes away what clearing does. -/
theorem cut_within_clear (fs : FileSystem) (k : Location) : (fs.cut k).Within (fs.clear k) := by
  intro l node hnode
  rw [get?_cut] at hnode
  split at hnode
  · simp at hnode
  · next h => rw [get?_clear, if_neg (fun hbelow => h hbelow.1), hnode]

/-- Clearing a location and then erasing it is cutting it. -/
theorem erase_clear (fs : FileSystem) (k : Location) : (fs.clear k).erase k = fs.cut k := by
  refine FileSystem.ext fun l => ?_
  rw [get?_erase, get?_clear, get?_cut]
  by_cases hkl : k = l
  · rw [if_pos hkl, if_pos (hkl ▸ List.prefix_rfl)]
  · rw [if_neg hkl]
    by_cases hbelow : k <+: l
    · rw [if_pos ⟨hbelow, Ne.symm hkl⟩, if_pos hbelow]
    · rw [if_neg (fun h => hbelow h.1), if_neg hbelow]

/-- A location that has nothing below it is cut by erasing it. -/
theorem WellFormed.erase_eq_cut (wf : fs.WellFormed)
    (h : ∀ node, fs.get? k = some node → node.kind ≠ .directory) : fs.erase k = fs.cut k := by
  refine FileSystem.ext fun l => ?_
  rw [get?_erase, get?_cut]
  by_cases hkl : k = l
  · rw [if_pos hkl, if_pos (hkl ▸ List.prefix_rfl)]
  · rw [if_neg hkl]
    by_cases hbelow : k <+: l
    · rw [if_pos hbelow]
      by_contra hthere
      obtain ⟨node, hnode⟩ := Option.ne_none_iff_exists'.1 hthere
      obtain ⟨directory, hdirectory, hkind⟩ := wf.directory_above hnode hbelow hkl
      exact h directory hdirectory hkind
    · rw [if_neg hbelow]

/-- Where nothing stands, there is nothing to cut. -/
theorem WellFormed.cut_eq_self (wf : fs.WellFormed) (h : fs.get? k = none) : fs.cut k = fs := by
  have herase : fs.erase k = fs := by
    refine FileSystem.ext fun l => ?_
    rw [get?_erase]
    split
    · next hkl => rw [← hkl, h]
    · rfl
  rw [← wf.erase_eq_cut (by simp [h]), herase]

/-- Cutting keeps a file system in good shape. -/
theorem WellFormed.cut (wf : fs.WellFormed) (k : Location) : (fs.cut k).WellFormed where
  isName := fun l node hnode => wf.isName l node (cut_within fs k l node hnode)
  parent := by
    intro l name node hnode
    obtain ⟨directory, hdirectory, hkind⟩ := wf.parent l name node (cut_within fs k _ node hnode)
    refine ⟨directory, ?_, hkind⟩
    rw [get?_cut] at hnode ⊢
    split at hnode
    · simp at hnode
    · next h => rw [if_neg (fun hbelow => h (hbelow.trans (List.prefix_append l [name]))), hdirectory]

/-! ## Emptying a directory -/

/-- Nothing stands deeper below a location. -/
def Shallow (fs : FileSystem) (l : Location) (depth : Nat) : Prop :=
  ∀ rest node, fs.get? (l ++ rest) = some node → rest.length ≤ depth

/-- Taking nodes away makes nothing deeper. -/
theorem Shallow.within {depth : Nat} (h : fs.Shallow l depth) (hwithin : fs'.Within fs) :
    fs'.Shallow l depth := fun rest node hnode => h rest node (hwithin _ node hnode)

/-- Below an entry it is less deep by one. -/
theorem Shallow.entry {depth : Nat} (h : fs.Shallow l (depth + 1)) (name : String) :
    fs.Shallow (l ++ [name]) depth := by
  intro rest node hnode
  rw [List.append_assoc, List.singleton_append] at hnode
  exact Nat.le_of_succ_le_succ (h (name :: rest) node hnode)

/-- How deep the nodes below a location are. -/
theorem shallow_depthBelow (fs : FileSystem) (l : Location) :
    fs.Shallow l (Storage.depthBelow fs l) := by
  have hmax (entries : List (Location × Node)) (start : Nat) :
      start ≤ entries.foldl (fun depth entry => max depth entry.1.length) start ∧
        ∀ entry ∈ entries, entry.1.length ≤
          entries.foldl (fun depth entry => max depth entry.1.length) start := by
    induction entries generalizing start with
    | nil => simp
    | cons entry entries ih =>
        obtain ⟨hstart, hrest⟩ := ih (max start entry.1.length)
        rw [List.foldl_cons]
        refine ⟨Nat.le_trans (Nat.le_max_left _ _) hstart, fun other hother => ?_⟩
        rcases List.mem_cons.1 hother with rfl | hother
        · exact Nat.le_trans (Nat.le_max_right _ _) hstart
        · exact hrest other hother
  intro rest node hnode
  by_cases hrest : rest = []
  · simp [hrest]
  · exact (hmax (fs.below l) 0).2 (rest, node) (mem_below.2 ⟨hrest, hnode⟩)

/-- Without some entries of a directory, and everything below them. -/
def cutAll (fs : FileSystem) (l : Location) (names : List String) : FileSystem :=
  names.foldl (fun fs name => fs.cut (l ++ [name])) fs

/-- What is left when some entries of a directory were cut. -/
theorem get?_cutAll (names : List String) :
    (fs.cutAll l names).get? k = if ∃ name ∈ names, l ++ [name] <+: k then none else fs.get? k := by
  induction names generalizing fs with
  | nil => simp [cutAll]
  | cons name names ih =>
      rw [cutAll, List.foldl_cons, ← cutAll, ih, get?_cut]
      by_cases hrest : ∃ other ∈ names, l ++ [other] <+: k
      · obtain ⟨other, hmem, hbelow⟩ := hrest
        rw [if_pos ⟨other, hmem, hbelow⟩, if_pos ⟨other, List.mem_cons_of_mem _ hmem, hbelow⟩]
      · rw [if_neg hrest]
        by_cases hfirst : l ++ [name] <+: k
        · rw [if_pos hfirst, if_pos ⟨name, List.mem_cons_self, hfirst⟩]
        · rw [if_neg hfirst, if_neg]
          rintro ⟨other, hmem, hbelow⟩
          rcases List.mem_cons.1 hmem with rfl | hmem
          · exact hfirst hbelow
          · exact hrest ⟨other, hmem, hbelow⟩

/-- Cutting entries only takes nodes away. -/
theorem cutAll_within (fs : FileSystem) (l : Location) (names : List String) :
    (fs.cutAll l names).Within fs := by
  intro k node hnode
  rw [get?_cutAll] at hnode
  split at hnode
  · simp at hnode
  · exact hnode

/-- A location is not at or below one of its own entries. -/
theorem not_concat_below (l : Location) (name : String) : ¬ l ++ [name] <+: l := by
  intro h
  have hlength := h.length_le
  rw [List.length_append, List.length_singleton] at hlength
  omega

/-- Cutting all entries of a directory clears it. -/
theorem WellFormed.cutAll_children (wf : fs.WellFormed) (l : Location) :
    fs.cutAll l ((fs.children l).map Prod.fst) = fs.clear l := by
  refine FileSystem.ext fun k => ?_
  rw [get?_cutAll, get?_clear]
  by_cases hbelow : l <+: k ∧ k ≠ l
  · rw [if_pos hbelow]
    obtain ⟨⟨rest, rfl⟩, hne⟩ := hbelow
    split
    · rfl
    · next hno =>
        by_contra hthere
        obtain ⟨node, hnode⟩ := Option.ne_none_iff_exists'.1 hthere
        cases rest with
        | nil => exact hne (List.append_nil l)
        | cons name rest =>
            obtain ⟨entry, hentry, _⟩ := wf.exists_of_append hnode
            have hmem : name ∈ (fs.children l).map Prod.fst :=
              List.mem_map.2 ⟨(name, entry), mem_children.2 hentry, rfl⟩
            refine hno ⟨name, hmem, ?_⟩
            rw [show l ++ name :: rest = l ++ [name] ++ rest by simp]
            exact List.prefix_append _ _
  · have hnone : ¬ ∃ name ∈ (fs.children l).map Prod.fst, l ++ [name] <+: k := by
      rintro ⟨name, _, hcut⟩
      refine hbelow ⟨(List.prefix_append l [name]).trans hcut, ?_⟩
      rintro rfl
      exact not_concat_below _ name hcut
    rw [if_neg hbelow, if_neg hnone]

/-- Every directory at or below a location is open to the caller. -/
def OpenBelow (caller : Caller) (fs : FileSystem) (l : Location) : Prop :=
  ∀ k node, l <+: k → fs.get? k = some node → node.kind = .directory →
    ∀ permission, caller.may permission node = true

/-- Directories stay open when nodes are taken away. -/
theorem OpenBelow.within (h : OpenBelow caller fs l) (hwithin : fs'.Within fs) (hk : l <+: k) :
    OpenBelow caller fs' k := fun place node hplace hnode =>
  h place node (hk.trans hplace) (hwithin place node hnode)

/-- The entries of an open directory may be changed. -/
theorem OpenBelow.enter (h : OpenBelow caller fs l) {directory : Node}
    (hdirectory : fs.get? l = some directory) (hkind : directory.kind = .directory) :
    Lookup.enter caller fs l = .ok () ∧ fs.checkWritable caller l = .ok () := by
  have hmay := h l directory List.prefix_rfl hdirectory hkind
  simp [Lookup.enter, checkWritable, hdirectory, hkind, hmay]

end FileSystem

namespace Storage

open FileSystem

variable {ε α β : Type} {caller : Caller} {fs fs' : FileSystem} {l : Location}

/-- A program that has no other result and leaves no other files when it succeeds, and that succeeds
under a condition. -/
structure Leaves (condition : Prop) (caller : Caller) (fs : FileSystem) (program : Storage ε α)
    (a : α) (fs' : FileSystem) : Prop where
  unique : ∀ b, (program.exec caller fs).1 = .ok b → b = a ∧ (program.exec caller fs).2 = fs'
  success : condition → ∃ b, (program.exec caller fs).1 = .ok b

section Leaves

variable {condition : Prop} {a : α} {b : β}

/-- A program that succeeds has the result that it leaves, and the files. -/
theorem Leaves.of_exec_ok {x : Storage ε α} (h : Leaves condition caller fs x a fs') {c : α}
    {after : FileSystem} (hexec : x.exec caller fs = (.ok c, after)) : c = a ∧ after = fs' := by
  have hunique := h.unique c (by rw [hexec])
  rwa [hexec] at hunique

/-- A program succeeds under its condition. -/
theorem Leaves.exec_eq {x : Storage ε α} (h : Leaves condition caller fs x a fs')
    (hcondition : condition) : x.exec caller fs = (.ok a, fs') := by
  obtain ⟨c, hc⟩ := h.success hcondition
  obtain ⟨rfl, hfiles⟩ := h.unique c hc
  exact Prod.ext hc hfiles

/-- Returning a value leaves everything. -/
theorem Leaves.pure : Leaves condition caller fs (pure a : Storage ε α) a fs where
  unique := fun _ hb => ⟨(Except.ok.inj hb).symm, rfl⟩
  success := fun _ => ⟨a, rfl⟩

/-- Parts that leave something leave it one after the other. -/
theorem Leaves.bind {x : Storage ε α} {f : α → Storage ε β} {middle : FileSystem}
    (hx : Leaves condition caller fs x a middle)
    (hf : Leaves condition caller middle (f a) b fs') :
    Leaves condition caller fs (x >>= f) b fs' where
  unique := by
    intro c hc
    obtain ⟨d, between, hfirst, hrest⟩ := of_exec_bind_ok
      (show (x >>= f).exec caller fs = (.ok c, ((x >>= f).exec caller fs).2) from Prod.ext hc rfl)
    obtain ⟨rfl, rfl⟩ := hx.of_exec_ok hfirst
    exact hf.of_exec_ok hrest
  success := by
    intro hcondition
    rw [exec_bind, hx.exec_eq hcondition]
    exact hf.success hcondition

/-- A question has at most one answer, and the files stay. -/
theorem Leaves.query {f : Caller → FileSystem → Except ε α} (hunique : ∀ b, f caller fs = .ok b → b = a)
    (hsuccess : condition → f caller fs = .ok a) :
    Leaves condition caller fs (Storage.query f) a fs where
  unique := fun b hb => ⟨hunique b hb, rfl⟩
  success := fun hcondition => ⟨a, hsuccess hcondition⟩

/-- A check has one answer, and the files stay. -/
theorem Leaves.check {f : Caller → FileSystem → Except ε Unit}
    (hsuccess : condition → f caller fs = .ok ()) :
    Leaves condition caller fs (Storage.query f) () fs :=
  .query (fun _ _ => rfl) hsuccess

/-- Looking at the files leaves them. -/
theorem Leaves.get : Leaves condition caller fs (get : Storage ε FileSystem) fs fs where
  unique := fun _ hb => ⟨(Except.ok.inj hb).symm, rfl⟩
  success := fun _ => ⟨fs, rfl⟩

/-- Throwing is right where the condition does not hold. -/
theorem Leaves.throw {e : ε} (h : ¬ condition) :
    Leaves condition caller fs (throw e : Storage ε α) a fs' where
  unique := by
    intro b hb
    have herror : (Except.error e : Except ε α) = .ok b := hb
    exact absurd herror (by simp)
  success := fun hcondition => absurd hcondition h

/-- A change leaves the one file system that it can. -/
theorem Leaves.change {f : Caller → FileSystem → Except ε FileSystem}
    (hunique : ∀ after, f caller fs = .ok after → after = fs')
    (hsuccess : condition → f caller fs = .ok fs') :
    Leaves condition caller fs (Storage.change f) () fs' where
  unique := by
    intro b hb
    obtain ⟨⟩ := b
    have hafter : f caller fs = .ok ((Storage.change f).exec caller fs).2 :=
      of_exec_change_ok (Prod.ext hb rfl)
    exact ⟨rfl, hunique _ hafter⟩
  success := fun hcondition => ⟨(), by rw [Storage.change, exec_ofExec, hsuccess hcondition]⟩

/-- The condition may be strengthened. -/
theorem Leaves.imp {other : Prop} {x : Storage ε α} (h : Leaves condition caller fs x a fs')
    (himp : other → condition) : Leaves other caller fs x a fs' where
  unique := h.unique
  success := fun hother => h.success (himp hother)

end Leaves

/-! ## Emptying a directory -/

/-- Removing an entry of a directory, with everything below it. -/
def emptyEntry (depth : Nat) (l : Location) (entry : String × Node) : Storage FileError PUnit := do
  if entry.2.kind == .directory then
    query fun caller fs => Lookup.enter caller fs l
    emptyDirectory depth (l ++ [entry.1])
  query fun caller fs => Lookup.enter caller fs l
  query fun caller fs => fs.checkWritable caller l
  modify (·.erase (l ++ [entry.1]))

/-- The entries of the directory at a location, for a caller who may list them. -/
def listEntries (l : Location) : Storage FileError (List (String × Node)) :=
  query fun caller fs =>
    match fs.get? l with
    | some node => if caller.may .read node then .ok (fs.children l) else .error (.system .accessDenied)
    | none => .error (.system .noEntry)

/-- Emptying a directory lists its entries and empties each of them. -/
theorem emptyDirectory_succ (depth : Nat) (l : Location) :
    emptyDirectory (depth + 1) l = (do
      let entries ← listEntries l
      entries.forM (emptyEntry depth l)) := rfl

/-- Listing the entries of a directory gives just these and changes nothing. -/
theorem leaves_listEntries {directory : Node} (hdirectory : fs.get? l = some directory)
    (hkind : directory.kind = .directory) :
    Leaves (OpenBelow caller fs l) caller fs (listEntries l) (fs.children l) fs := by
  refine .query (fun entries hentries => ?_) fun hopen => ?_
  · simp only [hdirectory] at hentries
    split at hentries
    · exact (Except.ok.inj hentries).symm
    · simp at hentries
  · simp [hdirectory, hopen l directory List.prefix_rfl hdirectory hkind]

/-- Erasing an entry of an open directory succeeds. -/
theorem leaves_erase {directory : Node} {name : String} (hdirectory : fs.get? l = some directory)
    (hkind : directory.kind = .directory) :
    Leaves (OpenBelow caller fs l) caller fs (do
      query fun caller fs => Lookup.enter caller fs l
      query fun caller fs => fs.checkWritable caller l
      modify (·.erase (l ++ [name])) : Storage FileError PUnit) ⟨⟩ (fs.erase (l ++ [name])) := by
  refine Leaves.bind (.check fun hopen => (hopen.enter hdirectory hkind).1) ?_
  refine Leaves.bind (.check fun hopen => (hopen.enter hdirectory hkind).2) ?_
  exact ⟨fun _ _ => ⟨rfl, rfl⟩, fun _ => ⟨⟨⟩, rfl⟩⟩

/-- Removing an entry cuts it. -/
theorem leaves_emptyEntry (wf : fs.WellFormed) {depth : Nat} {directory : Node}
    {entry : String × Node} (hdirectory : fs.get? l = some directory)
    (hkind : directory.kind = .directory) (hentry : fs.get? (l ++ [entry.1]) = some entry.2)
    (hbelow : entry.2.kind = .directory →
      Leaves (OpenBelow caller fs (l ++ [entry.1])) caller fs (emptyDirectory depth (l ++ [entry.1]))
        ⟨⟩ (fs.clear (l ++ [entry.1]))) :
    Leaves (OpenBelow caller fs l) caller fs (emptyEntry depth l entry) ⟨⟩
      (fs.cut (l ++ [entry.1])) := by
  have hcleared : (fs.clear (l ++ [entry.1])).get? l = some directory := by
    rw [get?_clear, if_neg, hdirectory]
    exact fun hbelow => not_concat_below l _ hbelow.1
  by_cases hsub : entry.2.kind = .directory
  · rw [emptyEntry, if_pos (by simpa using hsub), ← erase_clear]
    refine Leaves.bind (.check fun hopen => (hopen.enter hdirectory hkind).1) ?_
    refine Leaves.bind ((hbelow hsub).imp fun hopen => ?_) ?_
    · exact hopen.within (Within.refl fs) (List.prefix_append l _)
    · refine (leaves_erase hcleared hkind).imp fun hopen => ?_
      exact hopen.within (clear_within fs _) List.prefix_rfl
  · rw [emptyEntry, if_neg (by simpa using hsub), ← wf.erase_eq_cut]
    · exact leaves_erase hdirectory hkind
    · intro node hnode
      rw [hentry] at hnode
      exact Option.some.inj hnode ▸ hsub

/-- Removing entries of a directory one after the other cuts each of them. -/
theorem leaves_forM_emptyEntry (wf : fs.WellFormed) {depth : Nat} {directory : Node}
    {entries : List (String × Node)} (hdirectory : fs.get? l = some directory)
    (hkind : directory.kind = .directory) (hdistinct : entries.Pairwise fun a b => a.1 ≠ b.1)
    (hentries : ∀ entry ∈ entries, fs.get? (l ++ [entry.1]) = some entry.2)
    (hbelow : ∀ entry ∈ entries, entry.2.kind = .directory → ∀ fs' : FileSystem, fs'.Within fs →
      fs'.WellFormed → fs'.get? (l ++ [entry.1]) = some entry.2 →
        Leaves (OpenBelow caller fs' (l ++ [entry.1])) caller fs'
          (emptyDirectory depth (l ++ [entry.1])) ⟨⟩ (fs'.clear (l ++ [entry.1]))) :
    Leaves (OpenBelow caller fs l) caller fs (entries.forM (emptyEntry depth l)) ⟨⟩
      (fs.cutAll l (entries.map Prod.fst)) := by
  induction entries generalizing fs with
  | nil => exact .pure
  | cons entry entries ih =>
      obtain ⟨hother, hdistinct⟩ := List.pairwise_cons.1 hdistinct
      have hentry := hentries entry List.mem_cons_self
      have hwithin := cut_within fs (l ++ [entry.1])
      rw [List.forM_eq_forM, List.forM_cons, List.map_cons, cutAll, List.foldl_cons, ← cutAll]
      refine Leaves.bind (leaves_emptyEntry wf hdirectory hkind hentry fun hsub =>
        hbelow entry List.mem_cons_self hsub fs (Within.refl fs) wf hentry) ?_
      refine (ih (wf.cut _) ?_ hdistinct ?_ ?_).imp fun hopen => hopen.within hwithin List.prefix_rfl
      · rw [get?_cut, if_neg (not_concat_below l _), hdirectory]
      · intro other hmem
        rw [get?_cut, if_neg, hentries other (List.mem_cons_of_mem entry hmem)]
        intro hcut
        obtain hsame := (List.prefix_append_right_inj l).1 hcut
        exact hother other hmem (by simpa using hsame)
      · intro other hmem hsub fs' hfs'
        exact hbelow other (List.mem_cons_of_mem entry hmem) hsub fs' (hfs'.trans hwithin)

/-- Emptying a directory clears its location. -/
theorem leaves_emptyDirectory (wf : fs.WellFormed) {depth : Nat} {directory : Node}
    (hdirectory : fs.get? l = some directory) (hkind : directory.kind = .directory)
    (hshallow : fs.Shallow l depth) :
    Leaves (OpenBelow caller fs l) caller fs (emptyDirectory depth l) ⟨⟩ (fs.clear l) := by
  induction depth generalizing fs l directory with
  | zero =>
      have hclear : fs.clear l = fs := by
        refine FileSystem.ext fun k => ?_
        rw [get?_clear]
        split
        · next hbelow =>
            obtain ⟨⟨rest, rfl⟩, hne⟩ := hbelow
            by_contra hthere
            obtain ⟨node, hnode⟩ := Option.ne_none_iff_exists'.1 (Ne.symm hthere)
            have hrest := List.length_eq_zero_iff.1 (Nat.le_zero.1 (hshallow rest node hnode))
            exact hne (by rw [hrest, List.append_nil])
        · rfl
      rw [hclear]
      exact .pure
  | succ depth ih =>
      rw [emptyDirectory_succ, ← wf.cutAll_children]
      refine Leaves.bind (leaves_listEntries hdirectory hkind) ?_
      refine leaves_forM_emptyEntry wf hdirectory hkind (pairwise_children l) ?_ ?_
      · exact fun entry hentry => mem_children.1 hentry
      · intro entry hentry hsub fs' hwithin wf' hthere
        exact ih wf' hthere hsub ((hshallow.within hwithin).entry entry.1)

end Storage

end RpmRelease
