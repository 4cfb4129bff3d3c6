import RpmRelease.Proofs.FileSystem.Course
import RpmRelease.Proofs.FileSystem.Cutting

/-!
# Looking up paths inside a tree

A walk that starts in a directory and never goes up stays at and below it, as long as the links there
lead down, too.  What it finds depends on nothing else.  So a file system in which anything was added
outside of a tree answers every question about the paths inside that tree as before.
-/

set_option autoImplicit false

namespace RpmRelease

variable {caller : Caller} {fs fs' : FileSystem} {top l : Location}

/-- A text that is followed from where it stands and does not go up. -/
def Lookup.LeadsDown (text : String) : Prop :=
  text.toList.head? ≠ some '/' ∧ .up ∉ steps text

instance (text : String) : Decidable (Lookup.LeadsDown text) :=
  inferInstanceAs (Decidable (_ ∧ _))

/-- A node that leads down, if it is a link. -/
def Node.LeadsDown : Node → Prop
  | .link target _ => Lookup.LeadsDown target
  | _ => True

instance (node : Node) : Decidable node.LeadsDown :=
  match node with
  | .link target _ => inferInstanceAs (Decidable (Lookup.LeadsDown target))
  | .file .. | .directory .. => inferInstanceAs (Decidable True)

namespace FileSystem

/-- Two file systems are the same at a location and below it. -/
def SameBelow (top : Location) (fs fs' : FileSystem) : Prop :=
  ∀ l, top <+: l → fs'.get? l = fs.get? l

/-- The links at a location and below it lead down. -/
def LinksLeadDown (fs : FileSystem) (top : Location) : Prop :=
  ∀ l node, top <+: l → fs.get? l = some node → node.LeadsDown

/-- Keeping what is at and below a location keeps all that is below it. -/
theorem below_keep (fs : FileSystem) (l : Location) :
    (fs.keep fun k => l.isPrefixOf k).below l = fs.below l := by
  rw [below, keep, Std.ExtTreeMap.toList_filter, List.filterMap_filter, below]
  congr 1
  funext entry
  obtain ⟨place, node⟩ := entry
  by_cases hplace : l.isPrefixOf place = true
  · simp only [hplace, if_true]
  · simp only [hplace, Bool.false_and, Bool.false_eq_true, if_false]

/-- A directory has the same entries in file systems that are the same below it. -/
theorem SameBelow.children_eq (same : SameBelow top fs fs') (hl : top <+: l) :
    fs'.children l = fs.children l := by
  have hkeep : (fs'.keep fun k => l.isPrefixOf k) = fs.keep fun k => l.isPrefixOf k := by
    refine ext fun k => ?_
    rw [get?_keep, get?_keep]
    split
    · next hk => exact same k (hl.trans (List.isPrefixOf_iff_prefix.1 hk))
    · rfl
  rw [children, children, ← below_keep fs', hkeep, below_keep]

end FileSystem

namespace Lookup

open FileSystem (SameBelow)

/-! ## Walks that never go up -/

/-- A target that leads down is followed from where it stands. -/
theorem origin_of_leadsDown {target : String} (h : LeadsDown target) : origin l target = l := by
  rw [origin, if_neg (by simpa using h.1)]

/-- The target of a link that leads down is followed without going up. -/
theorem up_notMem_of_leadsDown {target : String} {rest : List Step} (h : LeadsDown target)
    (hrest : .up ∉ rest) : .up ∉ steps target ++ rest := by
  rw [List.mem_append, not_or]
  exact ⟨h.2, hrest⟩

/-- A walk that never goes up depends on nothing but what stands below its start. -/
theorem walk_eq_of_sameBelow (same : SameBelow top fs fs') (down : fs.LinksLeadDown top)
    {follow : Bool} {links : Nat} {path : List Step} (hl : top <+: l) (hpath : .up ∉ path) :
    walk caller fs' follow links l path = walk caller fs follow links l path := by
  -- links followed on the way put their targets in front, so the links are counted down first
  induction links using Nat.strongRecOn generalizing l path with
  | ind links ihLinks =>
      induction path generalizing l with
      | nil => rw [walk_eq, walk_eq, same l hl]
      | cons step rest ih =>
          have henter : enter caller fs' l = enter caller fs l := by
            rw [enter, enter, same l hl]
          have hrest : .up ∉ rest := fun h => hpath (List.mem_cons_of_mem step h)
          cases step with
          | here =>
              rw [walk_eq, walk_eq]
              simp only [henter, ih hl hrest]
          | up => exact absurd List.mem_cons_self hpath
          | directory =>
              rw [walk_eq, walk_eq]
              simp only [same l hl, ih hl hrest]
          | name name =>
              have hentry : top <+: l ++ [name] := hl.trans (List.prefix_append l [name])
              rw [walk_eq, walk_eq]
              simp only [henter, same _ hentry, ih hentry hrest]
              cases hnode : fs.get? (l ++ [name]) with
              | none => rfl
              | some node =>
                  cases node with
                  | directory => rfl
                  | file => rfl
                  | link target time =>
                      have hdown : LeadsDown target := down _ _ hentry hnode
                      cases links with
                      | zero => rfl
                      | succ fewer =>
                          simp only [origin_of_leadsDown hdown, ihLinks fewer (Nat.lt_succ_self _) hl
                            (up_notMem_of_leadsDown hdown hrest)]

/-- A walk that never goes up ends below its start. -/
theorem prefix_of_walk (down : fs.LinksLeadDown top) {follow : Bool} {links : Nat}
    {path : List Step} {place : Place} (hl : top <+: l) (hpath : .up ∉ path)
    (h : walk caller fs follow links l path = .ok place) : top <+: place.location := by
  rw [walk_eq_ok_iff] at h
  induction h with
  | nil => exact hl
  | here _ _ ih | directory _ _ _ ih => exact ih hl fun hup => hpath (List.mem_cons_of_mem _ hup)
  | up => exact absurd List.mem_cons_self hpath
  | vacant | link => exact hl.trans (List.prefix_append _ _)
  | @through _ _ _ target _ _ _ _ _ hnode _ _ ih =>
      have hdown : LeadsDown target := down _ _ (hl.trans (List.prefix_append _ _)) hnode
      refine ih (origin_of_leadsDown hdown ▸ hl) (up_notMem_of_leadsDown hdown ?_)
      exact fun hup => hpath (List.mem_cons_of_mem _ hup)
  | node _ _ _ _ _ ih =>
      exact ih (hl.trans (List.prefix_append _ _)) fun hup => hpath (List.mem_cons_of_mem _ hup)

/-- From a node at the end of a walk, every continuation goes its own way, whatever has been added. -/
theorem exists_walk_behind_within {links : Nat} {front : List Step} {node : Node}
    (h : walk caller fs true links l front = .ok (.occupied top node)) :
    ∃ links', ∀ fs', fs.Within fs' → ∀ follow rest, rest ≠ [] →
      walk caller fs' follow links l (front ++ rest) = walk caller fs' follow links' top rest := by
  rw [walk_eq_ok_iff] at h
  generalize hplace : Place.occupied top node = place at h
  -- on the walk to the directory, all of whose steps can be taken where more nodes are
  induction h with
  | @nil links l _ _ =>
      cases hplace
      exact ⟨links, fun _ _ _ _ _ => rfl⟩
  | here henter _ ih | up henter _ ih =>
      obtain ⟨links', hlinks⟩ := ih hplace
      refine ⟨links', fun fs' hwithin follow rest hne => ?_⟩
      rw [← hlinks fs' hwithin follow rest hne, List.cons_append, walk_eq]
      simp only [enter_within hwithin henter]
      rfl
  | directory hnode hkind _ ih =>
      obtain ⟨links', hlinks⟩ := ih hplace
      refine ⟨links', fun fs' hwithin follow rest hne => ?_⟩
      rw [← hlinks fs' hwithin follow rest hne, List.cons_append, walk_eq]
      simp only [hwithin _ _ hnode, hkind]
      rfl
  | vacant => cases hplace
  | link _ _ _ hfollow => exact absurd hfollow (by decide)
  | through henter hname hnode _ _ ih =>
      obtain ⟨links', hlinks⟩ := ih hplace
      refine ⟨links', fun fs' hwithin follow rest hne => ?_⟩
      rw [← hlinks fs' hwithin follow rest hne, List.cons_append, walk_name_link
        (enter_within hwithin henter) hname (hwithin _ _ hnode) (by simp [hne]), List.append_assoc]
  | node henter hname hnode hkind _ ih =>
      obtain ⟨links', hlinks⟩ := ih hplace
      refine ⟨links', fun fs' hwithin follow rest hne => ?_⟩
      rw [← hlinks fs' hwithin follow rest hne, List.cons_append, walk_name_node
        (enter_within hwithin henter) hname (hwithin _ _ hnode) hkind]

/-! ## Paths in front of others -/

/-- The text in front of a sound one is sound when it is not empty. -/
theorem checkText_of_append {text more : String} (htext : text ≠ "")
    (h : checkText (text ++ more) = .ok ()) : checkText text = .ok () := by
  have hshort := (of_checkText_ok h).2
  rw [String.utf8ByteSize_append] at hshort
  have hnul : '\x00' ∉ text.toList := by
    intro hnul
    simp [checkText, hnul] at h
  rw [checkText, if_neg (by simpa using hnul), if_neg (by simpa using htext), if_neg (by omega)]

/-- A path that is not too long with another one behind it is not too long without. -/
theorem checkText_of_join {p q : Path} (hp : p.text ≠ "") (hq : q.isAbsolute = false)
    (h : checkText (p.join q).text = .ok ()) : checkText p.text = .ok () := by
  rw [Path.join, hq, if_neg Bool.false_ne_true] at h
  split at h
  · exact checkText_of_append hp h
  · rw [String.append_assoc] at h
    exact checkText_of_append hp h

/-! ## Paths inside a tree -/

/-- A text without slashes leads down unless it is two dots. -/
theorem leadsDown_of_no_slash {text : List Char} (hslash : '/' ∉ text) (hparent : text ≠ ['.', '.']) :
    LeadsDown (String.ofList text) := by
  have hfound : .up ∉ found text := by
    rw [found, Path.splitWhen_of_no_slash hslash, List.mem_filterMap]
    rintro ⟨segment, hsegment, hup⟩
    obtain rfl := List.mem_singleton.1 hsegment
    rw [Step.ofSegment] at hup
    split_ifs at hup <;> cases hup
  constructor
  · rw [String.toList_ofList]
    exact fun hhead => hslash (List.mem_of_head? hhead)
  · rcases steps_eq (String.ofList text) with hsteps | hsteps <;> rw [hsteps, String.toList_ofList]
    · exact hfound
    · simpa using hfound

/-- A name leads down. -/
theorem leadsDown_name {name : String} (hname : Path.IsName name) : LeadsDown name := by
  simpa using leadsDown_of_no_slash hname.no_slash hname.chars_ne_parent

/-- A text that leads down has no step upwards. -/
theorem LeadsDown.up_notMem_found {text : String} (h : LeadsDown text) : .up ∉ found text.toList := by
  have hup := h.2
  rcases steps_eq text with hsteps | hsteps <;> rw [hsteps] at hup
  · exact hup
  · exact fun hfound => hup (List.mem_append_left _ hfound)

/-- A path that starts like a root and goes on from there without going up. -/
structure Inside (root p : Path) : Prop where
  text : p.text ≠ ""
  absolute : p.isAbsolute = root.isAbsolute
  behind : ∃ rest, found p.text.toList = found root.text.toList ++ rest ∧ .up ∉ rest

/-- A root is inside itself. -/
theorem inside_self {root : Path} (hroot : root.text ≠ "") : Inside root root :=
  ⟨hroot, rfl, [], (List.append_nil _).symm, List.not_mem_nil⟩

/-- A path inside, followed by a text that leads down. -/
theorem Inside.join {root p : Path} {text : String} (h : Inside root p) (hdown : LeadsDown text) :
    Inside root (p.join ⟨text⟩) := by
  have hrelative : (⟨text⟩ : Path).isAbsolute = false := by
    simpa [Path.isAbsolute] using hdown.1
  obtain ⟨rest, hrest, hup⟩ := h.behind
  refine ⟨?_, (Path.isAbsolute_join h.text hrelative).trans h.absolute,
    rest ++ found text.toList, ?_, ?_⟩
  · obtain ⟨base, hjoin, _⟩ := Path.exists_join_relative h.text hrelative
    intro hempty
    simp [hempty] at hjoin
  · rw [found_join h.text hrelative, hrest, List.append_assoc]
  · rw [List.mem_append, not_or]
    exact ⟨hup, hdown.up_notMem_found⟩

/-- The steps of a path inside. -/
theorem Inside.steps_eq {root p : Path} (h : Inside root p) :
    ∃ rest, steps p.text = found root.text.toList ++ rest ∧ .up ∉ rest := by
  obtain ⟨rest, hrest, hup⟩ := h.behind
  rcases Lookup.steps_eq p.text with hsteps | hsteps
  · exact ⟨rest, hsteps.trans hrest, hup⟩
  · refine ⟨rest ++ [.directory], ?_, by simpa using hup⟩
    rw [hsteps, hrest, List.append_assoc]

/-- A root leads to a directory, and anything may have been added to the file system, but not below
that directory. -/
structure Sheltered (caller : Caller) (root : Path) (top : Location) (fs fs' : FileSystem) : Prop where
  steps : steps root.text = found root.text.toList
  leads : ∃ node, find caller fs false root = .ok (top, node) ∧ node.kind = .directory
  within : fs.Within fs'
  same : SameBelow top fs fs'
  down : fs.LinksLeadDown top

namespace Sheltered

variable {root p : Path}

/-- A root leads to the directory that it shelters. -/
theorem find_root (h : Sheltered caller root top fs fs') (follow : Bool) :
    ∃ node, find caller fs follow root = .ok (top, node) := by
  obtain ⟨node, hfind, hkind⟩ := h.leads
  cases follow with
  | false => exact ⟨node, hfind⟩
  | true => exact ⟨node, find_follow (by simp [hkind]) hfind⟩

/-- Walking the steps of a root leads to the directory that it shelters. -/
theorem walk_root (h : Sheltered caller root top fs fs') (follow : Bool) :
    ∃ node, walk caller fs follow maxLinks (start caller root.text) (found root.text.toList) =
      .ok (.occupied top node) := by
  obtain ⟨node, hfind⟩ := h.find_root follow
  exact ⟨node, h.steps ▸ (find_eq_ok_iff.1 hfind).2⟩

/-- Behind the root, a walk goes on from its directory. -/
theorem exists_walk (h : Sheltered caller root top fs fs') :
    ∃ links, ∀ fs₁, fs.Within fs₁ → ∀ follow rest, rest ≠ [] →
      walk caller fs₁ follow maxLinks (start caller root.text) (found root.text.toList ++ rest) =
        walk caller fs₁ follow links top rest := by
  obtain ⟨node, hwalk⟩ := h.walk_root true
  exact exists_walk_behind_within hwalk

/-- The paths inside lead to the same places as before. -/
theorem locate_eq (h : Sheltered caller root top fs fs') (hp : Inside root p) (follow : Bool) :
    locate caller fs' follow p = locate caller fs follow p := by
  obtain ⟨rest, hsteps, hup⟩ := hp.steps_eq
  rw [locate, locate, start_eq hp.absolute, hsteps]
  congr 1
  funext _
  by_cases hrest : rest = []
  · obtain ⟨node, hwalk⟩ := h.walk_root follow
    rw [hrest, List.append_nil, hwalk, walk_within h.within hwalk]
  · obtain ⟨links, hwalk⟩ := h.exists_walk
    rw [hwalk fs' h.within follow rest hrest, hwalk fs (.refl fs) follow rest hrest]
    exact walk_eq_of_sameBelow h.same h.down List.prefix_rfl hup

/-- A path inside a root leads to the same, whatever was added elsewhere. -/
theorem find_eq (h : Sheltered caller root top fs fs') (hp : Inside root p) (follow : Bool) :
    find caller fs' follow p = find caller fs follow p := by
  rw [find, find, h.locate_eq hp]

/-- The paths inside lead to what stands below the root. -/
theorem prefix_of_find (h : Sheltered caller root top fs fs') (hp : Inside root p) {follow : Bool}
    {node : Node} (hfind : find caller fs follow p = .ok (l, node)) : top <+: l := by
  obtain ⟨rest, hsteps, hup⟩ := hp.steps_eq
  have hplace := (find_eq_ok_iff.1 hfind).2
  rw [start_eq hp.absolute, hsteps] at hplace
  by_cases hrest : rest = []
  · obtain ⟨other, hwalk⟩ := h.walk_root follow
    rw [hrest, List.append_nil, hwalk] at hplace
    cases hplace
    exact List.prefix_rfl
  · obtain ⟨links, hwalk⟩ := h.exists_walk
    rw [hwalk fs (.refl fs) follow rest hrest] at hplace
    exact prefix_of_walk h.down List.prefix_rfl hup hplace

/-- What stands behind the links of a path inside a root is the same. -/
theorem stat_eq (h : Sheltered caller root top fs fs') (hp : Inside root p) :
    fs'.stat caller p = fs.stat caller p :=
  congrArg (Except.map _) (h.find_eq hp true)

/-- What a path inside a root leads to is the same. -/
theorem lstat_eq (h : Sheltered caller root top fs fs') (hp : Inside root p) :
    fs'.lstat caller p = fs.lstat caller p :=
  congrArg (Except.map _) (h.find_eq hp false)

/-- A directory inside has the same entries as before. -/
theorem readDirectory_eq (h : Sheltered caller root top fs fs') (hp : Inside root p) :
    fs'.readDirectory caller p = fs.readDirectory caller p := by
  rw [FileSystem.readDirectory, FileSystem.readDirectory, h.find_eq hp]
  cases hfind : find caller fs true p with
  | error e => rfl
  | ok r =>
      obtain ⟨l, node⟩ := r
      have hchildren := h.same.children_eq (h.prefix_of_find hp hfind)
      simp only [bind, Except.bind, hchildren]

end Sheltered

end Lookup

end RpmRelease
