import Mathlib.Data.Set.Card
import Mathlib.Order.CompletePartialOrder
import RpmRelease.Proofs.FileSystem.Adding
import RpmRelease.Proofs.FileSystem.Passing
import RpmRelease.Proofs.FileSystem.Relisting

/-!
# Copies of trees

A tree is copied into the file system that it is in, while it is walked.  Once the place of the copy has
been created, each node that the walk meets is added to the copy, in its directory, and nothing else
changes.  So how far a copy has come is the set of the nodes that are copied, and this set determines the
file system.  Whether a node can be copied depends on the node, on its directory and on the directory of
its copy, and none of them changes on the way.  Therefore what has been copied once can be copied again
from wherever the copy has come, and the order in which directories are listed does not matter.
-/

set_option autoImplicit false

namespace RpmRelease.Storage

open FileSystem (Admits)

/-! ## What a walk meets -/

/-- No path on the way from a source by names is to be skipped. -/
def Kept (skip : List Path) (source : Path) (names : List String) : Prop :=
  ∀ front, front <+: names → skip.any (source.along front).same = false

section Kept

variable {skip : List Path} {source : Path} {names : List String} {name : String}

/-- Whether names are kept can be computed. -/
instance : Decidable (Kept skip source names) :=
  decidable_of_iff (∀ front ∈ names.inits, skip.any (source.along front).same = false)
    ⟨fun h front hfront => h front ((List.mem_inits _ _).2 hfront),
      fun h front hfront => h front ((List.mem_inits _ _).1 hfront)⟩

/-- What is on the way to something that is kept is kept. -/
theorem Kept.front {front : List String} (h : Kept skip source names) (hfront : front <+: names) :
    Kept skip source front :=
  fun other hother => h other (hother.trans hfront)

/-- An entry of something that is kept is kept, if it is not to be skipped itself. -/
theorem kept_concat (h : Kept skip source names)
    (hskip : skip.any (source.along (names ++ [name])).same = false) :
    Kept skip source (names ++ [name]) := by
  intro front hfront
  rcases List.prefix_concat_iff.1 hfront with rfl | habove
  · exact hskip
  · exact h front habove

end Kept

/-- A tree that is being copied.  The place of the copy has been created; there and below are only
directories that were created for it, and the walk does not come there. -/
structure Mirroring where
  caller : Caller
  skip : List Path
  source : Path
  destination : Path
  /-- the file system in which the place has just been created -/
  start : FileSystem
  origin : Location
  place : Location
  wellFormed : start.WellFormed
  named : source.text ≠ ""
  leads : Lookup.find caller start true destination =
    .ok (place, .directory Mode.directory caller.now)
  bare : ∀ names node, start.get? (place ++ names) = some node →
    node = .directory Mode.directory caller.now
  apart : ∀ names, Kept skip source names → ¬ place <+: origin ++ names

namespace Mirroring

variable (t : Mirroring)

/-- A directory that is created. -/
def made : Node := .directory Mode.directory t.caller.now

/-- What the walk meets at and below names. -/
def part (names : List String) : Set (List String) :=
  {all | names <+: all ∧ Kept t.skip t.source all ∧ (t.start.get? (t.origin ++ all)).isSome}

/-- What the walk meets below names. -/
def below (names : List String) : Set (List String) :=
  {all | all ∈ t.part names ∧ all ≠ names}

/-- What is no directory. -/
def leaves : Set (List String) :=
  {names | ∃ node, t.start.get? (t.origin ++ names) = some node ∧ node.kind ≠ .directory}

/-- Some nodes have been copied, and nothing else has changed. -/
structure Copied (done : Set (List String)) (fs : FileSystem) : Prop where
  wellFormed : fs.WellFormed
  within : t.start.Within fs
  copied : ∀ names ∈ done, ∃ node, t.start.get? (t.origin ++ names) = some node ∧
    fs.get? (t.place ++ names) = some (node.copied t.caller)
  elsewhere : ∀ l, (∀ names ∈ done, l ≠ t.place ++ names) → fs.get? l = t.start.get? l

/-- Some nodes have been copied, among them a directory, and some have not. -/
structure Ready (front : List String) (left done : Set (List String)) (fs : FileSystem) : Prop where
  copied : t.Copied done fs
  stands : Lookup.find t.caller fs true (t.destination.along front) =
    .ok (t.place ++ front, t.made)
  disjoint : Disjoint done left

/-- A program has succeeded from where some nodes were left to be copied. -/
def Succeeds (front : List String) (left : Set (List String)) (program : Storage Failure Nat) :
    Prop :=
  ∃ done fs n fs', t.Ready front left done fs ∧ program.exec t.caller fs = (.ok n, fs')

/-- A program copies the nodes that are left and counts those that are no directories. -/
def Copies (front : List String) (left : Set (List String)) (program : Storage Failure Nat) : Prop :=
  ∀ done fs, t.Ready front left done fs → ∃ n fs', program.exec t.caller fs = (.ok n, fs') ∧
    (n : ℕ∞) = (left ∩ t.leaves).encard ∧ t.Copied (done ∪ left) fs'

variable {t} {done done' left : Set (List String)} {front names : List String} {name : String}
  {fs fs' fs₁ : FileSystem} {node above : Node} {n : Nat}

/-! ## How far a copy has come -/

section Copied

/-- What has not been copied is in the place of the copy as it was. -/
theorem Copied.get?_place (h : t.Copied done fs) (hnames : names ∉ done) :
    fs.get? (t.place ++ names) = t.start.get? (t.place ++ names) := by
  apply h.elsewhere
  rintro other hother heq
  exact hnames (List.append_cancel_left heq ▸ hother)

/-- The entries of a directory that the walk meets stay as they are. -/
theorem Copied.get?_entry (h : t.Copied done fs) (hkept : Kept t.skip t.source names) :
    fs.get? (t.origin ++ (names ++ [name])) = t.start.get? (t.origin ++ (names ++ [name])) := by
  by_cases hmem : ∃ other ∈ done, t.origin ++ (names ++ [name]) = t.place ++ other
  · obtain ⟨other, hother, heq⟩ := hmem
    -- only the place itself can be an entry of a directory that is not in it, and it was there
    have hplace : t.place <+: t.origin ++ names ++ [name] := ⟨other, by rw [← heq]; simp⟩
    rcases List.prefix_concat_iff.1 hplace with hself | habove
    · have hthere := Lookup.get?_of_find t.leads
      have hentry : t.origin ++ (names ++ [name]) = t.place := by rw [hself, List.append_assoc]
      rw [hentry, hthere, h.within _ _ hthere]
    · exact absurd habove (t.apart names hkept)
  · apply h.elsewhere
    intro other hother heq
    exact hmem ⟨other, hother, heq⟩

/-- A directory that is kept has the entries that it had. -/
theorem Copied.mem_children (h : t.Copied done fs) (hkept : Kept t.skip t.source names)
    {entry : String × Node} :
    entry ∈ fs.children (t.origin ++ names) ↔ entry ∈ t.start.children (t.origin ++ names) := by
  rw [FileSystem.mem_children, FileSystem.mem_children, List.append_assoc, h.get?_entry hkept]

/-- What has been copied stays where it is. -/
theorem Copied.mono (h : t.Copied done fs) (h' : t.Copied done' fs') (hsubset : done ⊆ done') :
    fs.Within fs' := by
  intro l node hnode
  by_cases hmem : ∃ names ∈ done, l = t.place ++ names
  · obtain ⟨names, hnames, rfl⟩ := hmem
    obtain ⟨original, horiginal, hcopy⟩ := h.copied names hnames
    obtain ⟨other, hother, hcopy'⟩ := h'.copied names (hsubset hnames)
    obtain rfl : original = other := Option.some.inj (horiginal.symm.trans hother)
    rw [hcopy', ← hcopy, hnode]
  · apply h'.within
    rw [← h.elsewhere l fun names hnames heq => hmem ⟨names, hnames, heq⟩, hnode]

/-- The nodes that have been copied determine the file system. -/
theorem Copied.eq (h : t.Copied done fs) (h' : t.Copied done fs') : fs = fs' := by
  apply FileSystem.ext
  intro l
  cases hnode : fs.get? l with
  | some node => exact (h.mono h' subset_rfl l node hnode).symm
  | none =>
    cases hnode' : fs'.get? l with
    | none => rfl
    | some node => exact hnode.symm.trans (h'.mono h subset_rfl l node hnode')

/-- A node is copied to where nothing stands. -/
theorem Copied.put (h : t.Copied done fs) (hnode : t.start.get? (t.origin ++ names) = some node)
    (hvacant : fs.get? (t.place ++ names) = none)
    (puts : fs.Puts (t.place ++ names) (node.copied t.caller)) :
    t.Copied (done ∪ {names}) (fs.set (t.place ++ names) (node.copied t.caller)) where
  wellFormed := h.wellFormed.put puts
  within := h.within.trans (FileSystem.within_set hvacant _)
  copied := by
    intro other hother
    by_cases heq : other = names
    · subst heq
      exact ⟨node, hnode, by rw [FileSystem.get?_set, if_pos rfl]⟩
    · obtain ⟨original, horiginal, hcopy⟩ := h.copied other (hother.resolve_right heq)
      refine ⟨original, horiginal, ?_⟩
      rw [FileSystem.get?_set, if_neg, hcopy]
      intro hsame
      exact heq (List.append_cancel_left hsame).symm
  elsewhere := by
    intro l hl
    rw [FileSystem.get?_set, if_neg fun heq => hl names (.inr rfl) heq.symm]
    exact h.elsewhere l fun other hother => hl other (.inl hother)

/-- The copy of a directory may be there already. -/
theorem Copied.there (h : t.Copied done fs) (hnode : t.start.get? (t.origin ++ names) = some node)
    (hthere : fs.get? (t.place ++ names) = some (node.copied t.caller)) :
    t.Copied (done ∪ {names}) fs where
  wellFormed := h.wellFormed
  within := h.within
  copied := by
    rintro other (hother | rfl)
    · exact h.copied other hother
    · exact ⟨node, hnode, hthere⟩
  elsewhere := fun l hl => h.elsewhere l fun other hother => hl other (.inl hother)

end Copied

/-! ## One program after the other -/

/-- Where more may be copied, less may be. -/
theorem Ready.mono (h : t.Ready front left done fs) {part : Set (List String)} (hpart : part ⊆ left) :
    t.Ready front part done fs :=
  ⟨h.copied, h.stands, h.disjoint.mono_right hpart⟩

/-- Where some of the nodes that were left have been copied, the others are left. -/
theorem Ready.after {first rest : Set (List String)} (h : t.Ready front (first ∪ rest) done fs)
    (hdisjoint : Disjoint first rest) (h' : t.Copied (done ∪ first) fs') :
    t.Ready front rest (done ∪ first) fs' where
  copied := h'
  stands := Lookup.find_within (h.copied.mono h' Set.subset_union_left) h.stands
  disjoint := Set.disjoint_union_left.2 ⟨(h.mono Set.subset_union_right).disjoint, hdisjoint⟩

/-- A program that does nothing copies nothing. -/
theorem copies_empty {program : Storage Failure Nat}
    (h : ∀ fs, program.exec t.caller fs = (.ok 0, fs)) : t.Copies front ∅ program := by
  intro done fs hready
  refine ⟨0, fs, h fs, by simp, ?_⟩
  rw [Set.union_empty]
  exact hready.copied

section Items

variable {ι : Type} {program : ι → Storage Failure Nat} {parts : ι → Set (List String)}
  {items : List ι}

/-- What the parts of some items have together is the part of the first one and those of the others.
-/
theorem setOf_mem_cons (item : ι) :
    {all | ∃ other ∈ item :: items, all ∈ parts other} =
      parts item ∪ {all | ∃ other ∈ items, all ∈ parts other} := by
  ext all
  simp

/-- A part that has nothing in common with each of some parts has nothing in common with all of them.
-/
theorem disjoint_setOf_mem {item : ι} (h : ∀ other ∈ items, Disjoint (parts item) (parts other)) :
    Disjoint (parts item) {all | ∃ other ∈ items, all ∈ parts other} := by
  rw [Set.disjoint_left]
  rintro all hall ⟨other, hother, hmem⟩
  exact Set.disjoint_left.1 (h other hother) hall hmem

/-- Going through items copies what is left of each. -/
theorem copies_countOver (h : ∀ item ∈ items, t.Copies front (parts item) (program item))
    (hpair : items.Pairwise fun a b => Disjoint (parts a) (parts b)) :
    t.Copies front {all | ∃ item ∈ items, all ∈ parts item} (countOver program items) := by
  induction items with
  | nil =>
    have hnone : {all : List String | ∃ item ∈ ([] : List ι), all ∈ parts item} = ∅ := by simp
    rw [hnone]
    exact copies_empty fun fs => rfl
  | cons item items ih =>
    obtain ⟨hdisjoint, hpair⟩ := List.pairwise_cons.1 hpair
    obtain ⟨hitem, hitems⟩ := List.forall_mem_cons.1 h
    have hparts := disjoint_setOf_mem hdisjoint
    rw [setOf_mem_cons]
    intro done fs hready
    obtain ⟨m, fs₁, hfirst, hm, hcopied⟩ := hitem done fs (hready.mono Set.subset_union_left)
    obtain ⟨n, fs₂, hrest, hn, hall⟩ := ih hitems hpair _ fs₁ (hready.after hparts hcopied)
    refine ⟨m + n, fs₂, ?_, ?_, Set.union_assoc .. ▸ hall⟩
    · rw [countOver, exec_bind, hfirst]
      simp only
      rw [exec_bind, hrest]
      rfl
    · rw [Set.union_inter_distrib_right, Set.encard_union_eq, ← hm, ← hn, Nat.cast_add]
      exact hparts.mono Set.inter_subset_left Set.inter_subset_left

/-- Where going through items has succeeded, it has for each. -/
theorem succeeds_of_countOver
    (h : ∀ item ∈ items, t.Succeeds front (parts item) (program item) →
      t.Copies front (parts item) (program item))
    (hpair : items.Pairwise fun a b => Disjoint (parts a) (parts b))
    (hrun : t.Succeeds front {all | ∃ item ∈ items, all ∈ parts item} (countOver program items)) :
    ∀ item ∈ items, t.Succeeds front (parts item) (program item) := by
  induction items with
  | nil => intro item hitem; exact absurd hitem List.not_mem_nil
  | cons item items ih =>
    obtain ⟨hdisjoint, hpair⟩ := List.pairwise_cons.1 hpair
    obtain ⟨hitem, hitems⟩ := List.forall_mem_cons.1 h
    rw [setOf_mem_cons] at hrun
    obtain ⟨done, fs, n, fs', hready, hrun⟩ := hrun
    obtain ⟨m, fs₁, hfirst, hrun⟩ := of_exec_bind_ok hrun
    obtain ⟨k, fs₂, hrest, -⟩ := of_exec_bind_ok hrun
    have hhead := hready.mono Set.subset_union_left
    have hsucceeds : t.Succeeds front (parts item) (program item) := ⟨done, fs, m, fs₁, hhead, hfirst⟩
    obtain ⟨_, _, hsame, -, hcopied⟩ := hitem hsucceeds done fs hhead
    obtain rfl := congrArg Prod.snd (hsame.symm.trans hfirst)
    have hafter := hready.after (disjoint_setOf_mem hdisjoint) hcopied
    exact List.forall_mem_cons.2 ⟨hsucceeds, ih hitems hpair ⟨_, _, k, fs₂, hafter, hrest⟩⟩

end Items

/-! ## One node -/

section Node

/-- The destination of a copy is no empty path. -/
theorem destination_ne (t : Mirroring) : t.destination.text ≠ "" :=
  (Lookup.of_checkText_ok (Lookup.find_eq_ok_iff.1 t.leads).1).1

/-- Names that lead to a node are proper ones. -/
theorem isName_of_mem (hnode : t.start.get? (t.origin ++ names) = some node) :
    ∀ name ∈ names, Path.IsName name :=
  fun name hname => t.wellFormed.isName _ _ hnode name (List.mem_append_right _ hname)

/-- The last name that leads to a node is a proper one. -/
theorem isName_last (hnode : t.start.get? (t.origin ++ (front ++ [name])) = some node) :
    Path.IsName name :=
  isName_of_mem hnode name (by simp)

/-- What is left to be copied is in the place of the copy as it was. -/
theorem Ready.get?_left (h : t.Ready front left done fs) (hleft : names ∈ left) :
    fs.get? (t.place ++ names) = t.start.get? (t.place ++ names) :=
  h.copied.get?_place (Set.disjoint_right.1 h.disjoint hleft)

/-- In every file system on the way, the directory of an entry of the copy is the same. -/
theorem Ready.get?_above (h : t.Ready front left done fs) (h' : t.Ready front left done' fs') :
    fs'.get? (t.place ++ front) = fs.get? (t.place ++ front) :=
  (Lookup.get?_of_find h'.stands).trans (Lookup.get?_of_find h.stands).symm

/-- What is left of the copy is the same in every file system on the way. -/
theorem Ready.get?_same (h : t.Ready front left done fs) (h' : t.Ready front left done' fs')
    (hleft : names ∈ left) : fs'.get? (t.place ++ names) = fs.get? (t.place ++ names) :=
  (h'.get?_left hleft).trans (h.get?_left hleft).symm

/-- A node is copied to an entry that may be added. -/
theorem Copied.add {p : Path} (h : t.Copied done fs)
    (hnode : t.start.get? (t.origin ++ (front ++ [name])) = some node)
    (hadmits : Admits t.caller fs (t.place ++ front) p name) :
    t.Copied (done ∪ {front ++ [name]})
      (fs.set (t.place ++ front ++ [name]) (node.copied t.caller)) := by
  have hvacant := hadmits.vacant
  have hputs := hadmits.puts h.wellFormed (isName_last hnode) (node.copied t.caller)
  rw [List.append_assoc] at hvacant hputs ⊢
  exact h.put hnode hvacant hputs

/-- An entry of a directory that the walk meets is found as it is listed. -/
theorem find_child {follow : Bool} {r : Location × Node} (hwithin : t.start.Within fs)
    (hnode : t.start.get? (t.origin ++ (front ++ [name])) = some node)
    (hsource : Lookup.find t.caller t.start true (t.source.along front) =
      .ok (t.origin ++ front, above))
    (h : Lookup.find t.caller fs follow (t.source.along (front ++ [name])) = .ok r) :
    Lookup.find t.caller t.start false (t.source.along (front ++ [name])) =
      .ok (t.origin ++ (front ++ [name]), node) := by
  have hname := isName_last hnode
  have hthere := Lookup.get?_of_find hsource
  rw [Path.along_concat] at h ⊢
  rw [← List.append_assoc] at hnode ⊢
  have hcheck := Lookup.checkEntry_of_locate (Lookup.find_within hwithin hsource) hname
    (Lookup.locate_of_find h)
  rw [Lookup.checkEntry_congr ((hwithin _ _ hthere).trans hthere.symm)] at hcheck
  rw [Lookup.find_entry hsource hname hcheck, hnode]

/-- Where the directory of a copy could be created once, it can be created, or is there.  Then what is
left of its entries can be copied. -/
theorem exists_created {rest : Set (List String)}
    (hnode : t.start.get? (t.origin ++ (front ++ [name])) = some node)
    (hkind : node.kind = .directory) (hrest : front ++ [name] ∉ rest)
    (h : t.Ready front ({front ++ [name]} ∪ rest) done fs)
    (hrun : (createDirectories (t.destination.along (front ++ [name]))).exec t.caller fs =
      (.ok (), fs₁)) (h' : t.Ready front ({front ++ [name]} ∪ rest) done' fs') :
    ∃ fs₂, (createDirectories (t.destination.along (front ++ [name]))).exec t.caller fs' =
        (.ok (), fs₂) ∧
      t.Ready (front ++ [name]) rest (done' ∪ {front ++ [name]}) fs₂ := by
  have hname := isName_last hnode
  have hmade : node.copied t.caller = t.made := Node.copied_of_directory hkind
  have hleft : front ++ [name] ∈ {front ++ [name]} ∪ rest := .inl rfl
  have hsame := h.get?_same h' hleft
  have hdisjoint : Disjoint (done' ∪ {front ++ [name]}) rest := by
    rw [Set.disjoint_union_left, Set.disjoint_singleton_left]
    exact ⟨(h'.mono Set.subset_union_right).disjoint, hrest⟩
  rw [← List.append_assoc] at hsame
  -- how the directory of the copy is found when it is there
  have hfound {fs₂ : FileSystem} (hwithin : fs'.Within fs₂)
      (hcheck : Lookup.checkEntry t.caller fs (t.place ++ front) (t.destination.along front) name =
        .ok ())
      (hthere : fs₂.get? (t.place ++ front ++ [name]) = some t.made) :
      Lookup.find t.caller fs₂ true (t.destination.along (front ++ [name])) =
        .ok (t.place ++ (front ++ [name]), t.made) := by
    have hstands := Lookup.find_within hwithin h'.stands
    have habove : fs₂.get? (t.place ++ front) = fs.get? (t.place ++ front) :=
      (Lookup.get?_of_find hstands).trans (Lookup.get?_of_find h.stands).symm
    rw [← Lookup.checkEntry_congr habove] at hcheck
    apply Lookup.find_follow (by simp [made, Node.kind])
    rw [Path.along_concat, Lookup.find_entry hstands hname hcheck, hthere, List.append_assoc]
  rw [Path.along_concat] at hrun
  rcases of_createDirectories_join h.stands hname hrun with ⟨hadmits, -⟩ | ⟨hcheck, hthere, -⟩
  · have hvacant := hsame.trans hadmits.vacant
    have hadmits' := hadmits.congr (h.get?_above h') hvacant
    have hcopied := h'.copied.add hnode hadmits'
    rw [hmade] at hcopied
    have hstands := hfound (FileSystem.within_set hvacant t.made) hadmits.check (by
      rw [FileSystem.get?_set, if_pos rfl])
    have hexec := exec_createDirectories_vacant h'.stands hname hadmits'
    rw [← Path.along_concat] at hexec
    exact ⟨_, hexec, hcopied, hstands, hdisjoint⟩
  · obtain ⟨there, hthere⟩ := Option.isSome_iff_exists.1 hthere
    have hthere' := hsame.trans hthere
    obtain rfl : there = t.made := by
      apply t.bare (front ++ [name])
      rw [← h.get?_left hleft, ← List.append_assoc, hthere]
    have hcheck' := hcheck
    rw [← Lookup.checkEntry_congr (h.get?_above h')] at hcheck'
    have hcopied : t.Copied (done' ∪ {front ++ [name]}) fs' := by
      apply h'.copied.there hnode
      rw [hmade, ← List.append_assoc, hthere']
    have hexec := exec_createDirectories_there h'.stands hname hcheck' hthere' rfl
    rw [← Path.along_concat] at hexec
    exact ⟨fs', hexec, hcopied, hfound (.refl fs') hcheck hthere', hdisjoint⟩

/-- Where a file or a link could be copied once, it can be copied. -/
theorem exists_copied (hkind : node.kind ≠ .directory) (hleft : front ++ [name] ∈ left)
    (hsource : Lookup.find t.caller t.start false (t.source.along (front ++ [name])) =
      .ok (t.origin ++ (front ++ [name]), node)) (h : t.Ready front left done fs)
    (hrun : (copyEntry (t.source.along (front ++ [name])) (t.destination.along (front ++ [name]))
      node).exec t.caller fs = (.ok (), fs₁)) (h' : t.Ready front left done' fs') :
    ∃ fs₂, (copyEntry (t.source.along (front ++ [name])) (t.destination.along (front ++ [name]))
        node).exec t.caller fs' = (.ok (), fs₂) ∧
      t.Copied (done' ∪ {front ++ [name]}) fs₂ := by
  have hnode := Lookup.get?_of_find hsource
  have hname := isName_last hnode
  have hsame := h.get?_same h' hleft
  have hdirectory (there : Node) (hthere : fs.get? (t.place ++ front ++ [name]) = some there) :
      there.kind = .directory := by
    rw [List.append_assoc, h.get?_left hleft] at hthere
    rw [t.bare _ _ hthere]
    rfl
  rw [Path.along_concat t.destination] at hrun ⊢
  rw [← List.append_assoc] at hsame
  obtain ⟨hmay, hadmits, -⟩ := of_copyEntry_join (Lookup.find_within h.copied.within hsource) hkind
    h.stands hname hdirectory hrun
  have hvacant := hsame.trans hadmits.vacant
  have hadmits' := hadmits.congr (h.get?_above h') hvacant
  exact ⟨_, exec_copyEntry_join (Lookup.find_within h'.copied.within hsource) hkind h'.stands hname hmay
    hadmits', h'.copied.add hnode hadmits'⟩

end Node

/-! ## Directories -/

section Directory

/-- Of what is to be skipped the walk meets nothing. -/
theorem part_skipped (hskip : t.skip.any (t.source.along names).same = true) :
    t.part names = ∅ := by
  apply Set.eq_empty_of_forall_notMem
  rintro all ⟨hstarts, hkept, -⟩
  exact absurd hskip (by simp [hkept names hstarts])

/-- Different entries have nothing in common. -/
theorem disjoint_part {a b : String} (hne : a ≠ b) :
    Disjoint (t.part (names ++ [a])) (t.part (names ++ [b])) := by
  rw [Set.disjoint_left]
  rintro all ⟨ha, -⟩ ⟨hb, -⟩
  have hsame := List.prefix_of_prefix_length_le ha hb (by simp)
  rw [List.prefix_append_right_inj] at hsame
  exact hne (List.cons_prefix_cons.1 hsame).1

/-- The walk meets something that is kept, and what is below it. -/
theorem part_eq (hkept : Kept t.skip t.source names)
    (hnode : t.start.get? (t.origin ++ names) = some node) :
    t.part names = {names} ∪ t.below names := by
  ext all
  constructor
  · intro hall
    by_cases heq : all = names
    · exact .inl heq
    · exact .inr ⟨hall, heq⟩
  · rintro (rfl | hbelow)
    · exact ⟨List.prefix_rfl, hkept, by simp [hnode]⟩
    · exact hbelow.1

/-- What is below a directory is at or below one of its entries. -/
theorem below_eq : t.below names =
    {all | ∃ entry ∈ t.start.children (t.origin ++ names), all ∈ t.part (names ++ [entry.1])} := by
  ext all
  constructor
  · rintro ⟨⟨⟨rest, rfl⟩, hkept, hsome⟩, hne⟩
    obtain ⟨node, hnode⟩ := Option.isSome_iff_exists.1 hsome
    cases rest with
    | nil => exact absurd (List.append_nil names) hne
    | cons name rest =>
      rw [← List.append_assoc] at hnode
      obtain ⟨entry, hentry, -⟩ := t.wellFormed.exists_of_append hnode
      exact ⟨(name, entry), FileSystem.mem_children.2 hentry, ⟨rest, by simp⟩, hkept, hsome⟩
  · rintro ⟨entry, -, hstarts, hkept, hsome⟩
    refine ⟨⟨(List.prefix_append _ _).trans hstarts, hkept, hsome⟩, ?_⟩
    rintro rfl
    simpa using hstarts.length_le

/-- Nothing is below a file or a link. -/
theorem below_leaf (hnode : t.start.get? (t.origin ++ names) = some node)
    (hkind : node.kind ≠ .directory) : t.below names = ∅ := by
  apply Set.eq_empty_of_forall_notMem
  rintro all ⟨⟨hstarts, -, hsome⟩, hne⟩
  obtain ⟨other, hother⟩ := Option.isSome_iff_exists.1 hsome
  obtain ⟨directory, hdirectory, hdirectoryKind⟩ := t.wellFormed.directory_above hother
    ((List.prefix_append_right_inj t.origin).2 hstarts)
    (fun heq => hne (List.append_cancel_left heq).symm)
  obtain rfl : node = directory := Option.some.inj (hnode.symm.trans hdirectory)
  exact hkind hdirectoryKind

/-- A directory counts for nothing. -/
theorem union_inter_leaves (hnode : t.start.get? (t.origin ++ names) = some node)
    (hkind : node.kind = .directory) (rest : Set (List String)) :
    ({names} ∪ rest) ∩ t.leaves = rest ∩ t.leaves := by
  have hdirectory : {names} ∩ t.leaves = ∅ := by
    apply Set.singleton_inter_eq_empty.2
    rintro ⟨other, hother, hotherKind⟩
    rw [hnode] at hother
    exact hotherKind (Option.some.inj hother ▸ hkind)
  rw [Set.union_inter_distrib_right, hdirectory, Set.empty_union]

variable {listing : Listing} {steps : Nat}

/-- Copying a file or a link that is listed. -/
theorem copies_copyMet_leaf {deeper deeper' : Path → Storage Failure Nat} {entry : String × Node}
    (hkept : Kept t.skip t.source names)
    (hentry : t.start.get? (t.origin ++ (names ++ [entry.1])) = some entry.2)
    (hkind : entry.2.kind ≠ .directory)
    (hsource : Lookup.find t.caller t.start true (t.source.along names) =
      .ok (t.origin ++ names, above))
    (hrun : t.Succeeds names (t.part (names ++ [entry.1]))
      (copyMet t.skip t.source t.destination deeper (t.source.along names) entry)) :
    t.Copies names (t.part (names ++ [entry.1]))
      (copyMet t.skip t.source t.destination deeper' (t.source.along names) entry) := by
  have hchild := Path.along_concat t.source names entry.1
  cases hskip : t.skip.any (t.source.along (names ++ [entry.1])).same with
  | true =>
    rw [part_skipped hskip]
    apply copies_empty
    intro fs
    exact exec_copyMet_skipped hkind (hchild ▸ hskip)
  | false =>
    have hplace := placeBelow_along t.named t.destination_ne (by simp) (isName_of_mem hentry)
    have hpart : t.part (names ++ [entry.1]) = {names ++ [entry.1]} := by
      rw [part_eq (kept_concat hkept hskip) hentry, below_leaf hentry hkind, Set.union_empty]
    have hleaf : {names ++ [entry.1]} ⊆ t.leaves := Set.singleton_subset_iff.2 ⟨_, hentry, hkind⟩
    rw [hpart] at hrun ⊢
    obtain ⟨done, fs, n, fs', hready, hrun⟩ := hrun
    obtain ⟨-, target, l, node, htarget, hfind, hcopy⟩ := of_copyMet_ok hkind (hchild ▸ hskip) hrun
    rw [← hchild] at htarget hfind hcopy
    rw [hplace] at htarget
    obtain ⟨rfl, -⟩ := Run.ok_inj htarget
    have hfound := find_child hready.copied.within hentry hsource hfind
    obtain ⟨rfl, rfl⟩ : l = t.origin ++ (names ++ [entry.1]) ∧ node = entry.2 := by
      simpa using hfind.symm.trans (Lookup.find_within hready.copied.within hfound)
    intro done' fs₁ hready'
    obtain ⟨fs₂, hcopy', hcopied⟩ :=
      exists_copied hkind (Set.mem_singleton _) hfound hready hcopy hready'
    have hfind' := Lookup.find_within hready'.copied.within hfound
    refine ⟨1, fs₂, exec_copyMet hkind (hchild ▸ hskip) (hchild ▸ hplace) (hchild ▸ hfind')
      (hchild ▸ hcopy'), ?_, hcopied⟩
    rw [Set.inter_eq_left.2 hleaf, Set.encard_singleton]
    rfl

/-- Copying an entry that is listed, when that is known of directories. -/
theorem copies_copyMet {deeper deeper' : Path → Storage Failure Nat} {entry : String × Node}
    (hkept : Kept t.skip t.source names)
    (hentry : t.start.get? (t.origin ++ (names ++ [entry.1])) = some entry.2)
    (hsource : Lookup.find t.caller t.start true (t.source.along names) =
      .ok (t.origin ++ names, above))
    (hdeeper : entry.2.kind = .directory →
      t.Succeeds names (t.part (names ++ [entry.1])) (deeper (t.source.along (names ++ [entry.1]))) →
      t.Copies names (t.part (names ++ [entry.1])) (deeper' (t.source.along (names ++ [entry.1]))))
    (hrun : t.Succeeds names (t.part (names ++ [entry.1]))
      (copyMet t.skip t.source t.destination deeper (t.source.along names) entry)) :
    t.Copies names (t.part (names ++ [entry.1]))
      (copyMet t.skip t.source t.destination deeper' (t.source.along names) entry) := by
  by_cases hkind : entry.2.kind = .directory
  · rw [copyMet_directory hkind, ← Path.along_concat] at hrun ⊢
    exact hdeeper hkind hrun
  · exact copies_copyMet_leaf hkept hentry hkind hsource hrun

/-- Whatever the order, the entries of a directory are listed. -/
theorem mem_listing (hlisting : listing.Permutes) (hkept : Kept t.skip t.source names)
    (h : t.Copied done fs) {entry : String × Node} :
    entry ∈ listing fs (t.origin ++ names) ↔ entry ∈ t.start.children (t.origin ++ names) :=
  (hlisting fs _).mem_iff.trans (h.mem_children hkept)

/-- Each entry is listed once. -/
theorem pairwise_listing (hlisting : listing.Permutes) (fs : FileSystem) (names : List String) :
    (listing fs (t.origin ++ names)).Pairwise fun a b =>
      Disjoint (t.part (names ++ [a.1])) (t.part (names ++ [b.1])) :=
  ((hlisting fs _).pairwise_iff fun h => h.symm).2
    ((FileSystem.pairwise_children _).imp disjoint_part)

/-- What the walk meets below a directory is what it meets of the entries that are listed. -/
theorem below_eq_listing (hlisting : listing.Permutes) (hkept : Kept t.skip t.source names)
    (h : t.Copied done fs) : t.below names =
      {all | ∃ entry ∈ listing fs (t.origin ++ names), all ∈ t.part (names ++ [entry.1])} := by
  simp only [below_eq, mem_listing hlisting hkept h]

/-- Copying the entries of a directory that is listed, when that is known of directories. -/
theorem copies_copyListed (hlisting : listing.Permutes) (hkept : Kept t.skip t.source names)
    (hsource : Lookup.find t.caller t.start true (t.source.along names) =
      .ok (t.origin ++ names, above))
    (hdeeper : ∀ name node, t.start.get? (t.origin ++ (names ++ [name])) = some node →
      node.kind = .directory → ∀ listing' : Listing, listing'.Permutes →
      t.Succeeds names (t.part (names ++ [name])) (copyDirectoryBy listing t.skip t.source
        t.destination steps (t.source.along (names ++ [name]))) →
      t.Copies names (t.part (names ++ [name])) (copyDirectoryBy listing' t.skip t.source
        t.destination steps (t.source.along (names ++ [name]))))
    (hrun : t.Succeeds names (t.below names)
      (copyListed listing t.skip t.source t.destination steps (t.source.along names)
        (t.origin ++ names))) {listing' : Listing} (hlisting' : listing'.Permutes) :
    t.Copies names (t.below names)
      (copyListed listing' t.skip t.source t.destination steps (t.source.along names)
        (t.origin ++ names)) := by
  -- entries are copied each on its own, so that their order does not matter
  have hentry (entry : String × Node) (hentry : entry ∈ t.start.children (t.origin ++ names))
      {listing' : Listing} (hlisting' : listing'.Permutes)
      (hrun : t.Succeeds names (t.part (names ++ [entry.1])) (copyMet t.skip t.source t.destination
        (copyDirectoryBy listing t.skip t.source t.destination steps) (t.source.along names)
          entry)) :
      t.Copies names (t.part (names ++ [entry.1])) (copyMet t.skip t.source t.destination
        (copyDirectoryBy listing' t.skip t.source t.destination steps) (t.source.along names)
          entry) := by
    have hthere := FileSystem.mem_children.1 hentry
    rw [List.append_assoc] at hthere
    exact copies_copyMet hkept hthere hsource
      (fun hkind => hdeeper entry.1 entry.2 hthere hkind listing' hlisting') hrun
  obtain ⟨done, fs, n, fs', hready, hrun⟩ := hrun
  rw [exec_copyListed] at hrun
  rw [below_eq_listing hlisting hkept hready.copied] at hready
  have hall := succeeds_of_countOver
    (fun entry hlisted => hentry entry ((mem_listing hlisting hkept hready.copied).1 hlisted) hlisting)
    (pairwise_listing hlisting fs names) ⟨done, fs, n, fs', hready, hrun⟩
  intro done' fs₁ hready'
  have hbelow := below_eq_listing hlisting' hkept hready'.copied
  rw [exec_copyListed, hbelow]
  rw [hbelow] at hready'
  refine copies_countOver (fun entry hlisted => ?_) (pairwise_listing hlisting' fs₁ names) done' fs₁
    hready'
  have hstart := (mem_listing hlisting' hkept hready'.copied).1 hlisted
  exact hentry entry hstart hlisting' (hall entry ((mem_listing hlisting hkept hready.copied).2 hstart))

/-- Copying a directory that is met, with everything below it. -/
theorem copies_copyDirectoryBy (hlisting : listing.Permutes)
    (hkept : Kept t.skip t.source front)
    (hsource : Lookup.find t.caller t.start true (t.source.along front) =
      .ok (t.origin ++ front, above))
    (hnode : t.start.get? (t.origin ++ (front ++ [name])) = some node)
    (hkind : node.kind = .directory) (hsteps : 0 < steps)
    (hsize : Lookup.maxPath < (t.source.along (front ++ [name])).text.utf8ByteSize + steps)
    (hrun : t.Succeeds front (t.part (front ++ [name]))
      (copyDirectoryBy listing t.skip t.source t.destination steps
        (t.source.along (front ++ [name])))) {listing' : Listing} (hlisting' : listing'.Permutes) :
    t.Copies front (t.part (front ++ [name]))
      (copyDirectoryBy listing' t.skip t.source t.destination steps
        (t.source.along (front ++ [name]))) := by
  -- on the depth that is left; the listing changes on the way, so it is generalized too
  induction steps generalizing front name node above listing' with
  | zero => exact absurd hsteps (Nat.lt_irrefl 0)
  | succ steps ih =>
    cases hskip : t.skip.any (t.source.along (front ++ [name])).same with
    | true =>
      rw [part_skipped hskip]
      apply copies_empty
      intro fs
      exact exec_copyDirectoryBy_skipped hskip
    | false =>
      have hkept' := kept_concat hkept hskip
      have hplace := placeBelow_along t.named t.destination_ne (by simp) (isName_of_mem hnode)
      rw [part_eq hkept' hnode] at hrun ⊢
      obtain ⟨done, fs, n, fs', hready, hrun⟩ := hrun
      obtain ⟨target, l, met, fs₁, htarget, hfind, -, hmay, hcreate, hlisted⟩ :=
        of_copyDirectoryBy_ok hskip hrun
      rw [hplace] at htarget
      obtain ⟨rfl, -⟩ := Run.ok_inj htarget
      have hfound := find_child hready.copied.within hnode hsource hfind
      have hfollow := Lookup.find_follow (by simp [hkind]) hfound
      obtain ⟨rfl, rfl⟩ : l = t.origin ++ (front ++ [name]) ∧ met = node := by
        simpa using hfind.symm.trans (Lookup.find_within hready.copied.within hfollow)
      have hsmall := (Lookup.of_checkText_ok (Lookup.find_eq_ok_iff.1 hfound).1).2
      have hrest : front ++ [name] ∉ t.below (front ++ [name]) := fun hself => hself.2 rfl
      -- the run that is known creates the directory as any run does from which more is left
      obtain ⟨_, hsame, hready₁⟩ := exists_created hnode hkind hrest hready hcreate hready
      obtain rfl := congrArg Prod.snd (hsame.symm.trans hcreate)
      have hcopies := copies_copyListed hlisting hkept' hfollow
        (fun name' node' hnode' hkind' listing' hlisting' hrun' => ?_)
        ⟨_, _, n, fs', hready₁, hlisted⟩ hlisting'
      · intro done' fs₂ hready'
        obtain ⟨fs₃, hexec, hready₃⟩ := exists_created hnode hkind hrest hready hcreate hready'
        obtain ⟨m, fs₄, hrest, hm, hcopied⟩ := hcopies _ fs₃ hready₃
        refine ⟨m, fs₄, ?_, ?_, ?_⟩
        · rw [exec_copyDirectoryBy hskip hplace (Lookup.find_within hready'.copied.within hfound) hkind
            hmay hexec, hrest]
        · rw [union_inter_leaves hnode hkind, hm]
        · rw [← Set.union_assoc]
          exact hcopied
      · -- every name makes the paths longer, and the depth suffices for all that can be looked at
        have hlonger := Path.size_lt_join (p := t.source.along (front ++ [name])) (isName_last hnode')
        rw [← Path.along_concat] at hlonger
        exact ih hkept' hfollow hnode' hkind' (by omega) (by omega) hrun' hlisting'

end Directory

/-! ## The whole tree -/

/-- Where the place of the copy has been created, the directory at the top has been copied. -/
theorem ready_start (htop : t.start.get? t.origin = some node) (hkind : node.kind = .directory) :
    t.Ready [] (t.below []) {[]} t.start where
  copied := by
    refine ⟨t.wellFormed, .refl _, ?_, fun _ _ => rfl⟩
    rintro names rfl
    refine ⟨node, by rwa [List.append_nil], ?_⟩
    rw [List.append_nil, Lookup.get?_of_find t.leads, Node.copied_of_directory hkind]
  stands := by
    rw [List.append_nil]
    exact t.leads
  disjoint := by
    rw [Set.disjoint_singleton_left]
    exact fun hself => hself.2 rfl

/-- Once its place has been created, a directory is copied with everything that the walk meets, in
whatever order directories are listed. -/
theorem copied_of_copyListed {listing : Listing} {steps : Nat} (hlisting : listing.Permutes)
    (hsource : Lookup.find t.caller t.start true t.source = .ok (t.origin, node))
    (hkind : node.kind = .directory) (hskip : t.skip.any t.source.same = false)
    (hsteps : Lookup.maxPath = steps + 1)
    (hrun : (copyListed listing t.skip t.source t.destination steps t.source t.origin).exec t.caller
      t.start = (.ok n, fs')) :
    (n : ℕ∞) = (t.part [] ∩ t.leaves).encard ∧ t.Copied (t.part []) fs' ∧
      ∀ listing' : Listing, listing'.Permutes →
        (copyListed listing' t.skip t.source t.destination steps t.source t.origin).exec t.caller
          t.start = (.ok n, fs') := by
  have hkept : Kept t.skip t.source [] := by
    intro front hfront
    rw [List.prefix_nil.1 hfront]
    exact hskip
  have hself : t.origin ++ [] = t.origin := List.append_nil _
  have hfound : Lookup.find t.caller t.start true (t.source.along []) =
      .ok (t.origin ++ [], node) := by
    rwa [hself]
  have hready := ready_start (Lookup.get?_of_find hsource) hkind
  have hsucceeds : t.Succeeds [] (t.below []) (copyListed listing t.skip t.source t.destination steps
      (t.source.along []) (t.origin ++ [])) :=
    ⟨_, _, n, fs', hready, hself.symm ▸ hrun⟩
  -- one level down the depth suffices, as every name makes the paths longer
  have hdeeper (name : String) (node' : Node)
      (hnode' : t.start.get? (t.origin ++ ([] ++ [name])) = some node')
      (hkind' : node'.kind = .directory)
      (listing' : Listing) (hlisting' : listing'.Permutes)
      (hrun' : t.Succeeds [] (t.part ([] ++ [name])) (copyDirectoryBy listing t.skip t.source
        t.destination steps (t.source.along ([] ++ [name])))) :
      t.Copies [] (t.part ([] ++ [name])) (copyDirectoryBy listing' t.skip t.source t.destination
        steps (t.source.along ([] ++ [name]))) := by
    have hlonger := Path.size_lt_join (p := t.source) (isName_last hnode')
    have hnamed := String.utf8ByteSize_eq_zero_iff.not.2 t.named
    have hlong : 1 < Lookup.maxPath := by decide
    refine copies_copyDirectoryBy hlisting hkept hfound hnode' hkind' (by omega) ?_ hrun' hlisting'
    rw [Path.along_concat, show t.source.along [] = t.source from rfl]
    omega
  -- so every listing copies the same nodes, among them the one of the run that is known
  have hall {listing' : Listing} (hlisting' : listing'.Permutes) :=
    copies_copyListed hlisting hkept hfound hdeeper hsucceeds hlisting' _ _ hready
  rw [part_eq hkept (Lookup.get?_of_find hfound),
    union_inter_leaves (Lookup.get?_of_find hfound) hkind]
  obtain ⟨m, after, hexec, hm, hcopied⟩ := hall hlisting
  rw [hself] at hexec
  obtain ⟨hok, rfl⟩ := Prod.mk.inj (hexec.symm.trans hrun)
  obtain rfl := Except.ok.inj hok
  refine ⟨hm, hcopied, fun listing' hlisting' => ?_⟩
  obtain ⟨m', after', hexec', hm', hcopied'⟩ := hall hlisting'
  rw [hself] at hexec'
  obtain rfl : m' = m := Nat.cast_inj.1 (hm'.trans hm.symm)
  rw [hcopied.eq hcopied']
  exact hexec'

end Mirroring

end RpmRelease.Storage
