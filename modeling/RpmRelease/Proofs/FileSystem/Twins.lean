import RpmRelease.Proofs.FileSystem.Agreeing
import RpmRelease.Proofs.FileSystem.Inside
import RpmRelease.Proofs.Path.Moves

/-!
# Trees that look the same

Two trees look the same when the same names lead to nodes of the same kind and with the same permissions.
They may be parts of different file systems, and they may be reached in different ways.  Without links in
them, what is asked below one of them is answered as it is below the other: a walk that never goes up
fails in the same way or ends at the same names, and a directory has the same entries in the same order.

A path is followed below a directory by texts that are joined to it one after the other.  Where they lead
depends on the directory and the texts, and on the path only in that it must not become too long.
-/

set_option autoImplicit false

namespace RpmRelease

/-- What a node shows when it is looked up: what it is, and what its owner may do with it. -/
def Node.guise (node : Node) : Node.Kind × Mode :=
  (node.kind, node.mode)

/-- A caller may do the same with nodes that look the same. -/
theorem Caller.may_eq_of_guise (caller : Caller) (permission : Permission) {a b : Node}
    (h : a.guise = b.guise) : caller.may permission a = caller.may permission b := by
  rw [may, may, (Prod.mk.inj h).2]

/-! ## The order of names -/

/-- Locations that begin alike compare like what comes behind. -/
theorem compare_append (l names others : Location) :
    compare (l ++ names) (l ++ others) = compare names others := by
  induction l with
  | nil => rfl
  | cons name l ih =>
      have hself : compare name name = .eq := Std.ReflCmp.compare_self
      change List.compareLex compare (name :: (l ++ names)) (name :: (l ++ others)) = _
      rw [List.compareLex_cons_cons, hself]
      exact ih

/-- Locations of one name compare like the names. -/
theorem compare_singleton (name other : String) : compare [name] [other] = compare name other := by
  change List.compareLex compare [name] [other] = _
  rw [List.compareLex_cons_cons, List.compareLex_nil_nil, Ordering.then_eq]

namespace FileSystem

variable {fs fs₁ fs₂ : FileSystem} {top₁ top₂ : Location}

/-- The entries of a directory are in the order of their names. -/
theorem ordered_children (fs : FileSystem) (l : Location) :
    (fs.children l).Pairwise fun a b => compare a.1 b.1 = .lt := by
  have hbelow : (fs.below l).Pairwise fun a b => compare a.1 b.1 = .lt := by
    refine pairwise_below_of (R := (compare · · = .lt)) (fs.nodes.ordered_keys_toList.imp ?_)
    intro a b hlt rest rest' ha hb
    rwa [ha, hb, compare_append] at hlt
  refine pairwise_children_of (R := (compare · · = .lt)) (hbelow.imp ?_)
  intro a b hlt name name' ha hb
  rwa [ha, hb, compare_singleton] at hlt

/-! ## Trees -/

/-- Two trees look the same, and there are no links in them. -/
structure Twins (fs₁ : FileSystem) (top₁ : Location) (fs₂ : FileSystem) (top₂ : Location) : Prop where
  same : ∀ names,
    (fs₁.get? (top₁ ++ names)).map Node.guise = (fs₂.get? (top₂ ++ names)).map Node.guise
  plain : ∀ names node, fs₁.get? (top₁ ++ names) = some node → node.kind ≠ .link

namespace Twins

/-- What stands at names in both trees. -/
theorem none_or_some (t : Twins fs₁ top₁ fs₂ top₂) (names : Location) :
    (fs₁.get? (top₁ ++ names) = none ∧ fs₂.get? (top₂ ++ names) = none) ∨
      ∃ a b, fs₁.get? (top₁ ++ names) = some a ∧ fs₂.get? (top₂ ++ names) = some b ∧
        a.guise = b.guise ∧ a.kind ≠ .link := by
  have hsame := t.same names
  cases ha : fs₁.get? (top₁ ++ names) with
  | none =>
      rw [ha] at hsame
      exact .inl ⟨rfl, Option.map_eq_none_iff.1 hsame.symm⟩
  | some a =>
      rw [ha] at hsame
      obtain ⟨b, hb, hguise⟩ := Option.map_eq_some_iff.1 hsame.symm
      exact .inr ⟨a, b, rfl, hb, hguise.symm, t.plain names a ha⟩

/-- A directory has the same entries in both trees. -/
theorem forall₂_children (t : Twins fs₁ top₁ fs₂ top₂) (names : Location) :
    List.Forall₂ (fun a b => a.1 = b.1 ∧ a.2.guise = b.2.guise) (fs₁.children (top₁ ++ names))
      (fs₂.children (top₂ ++ names)) := by
  let look (entry : String × Node) : String × Node.Kind × Mode := (entry.1, entry.2.guise)
  have hordered (fs : FileSystem) (l : Location) :
      ((fs.children l).map look).Pairwise fun a b => compare a.1 b.1 = .lt :=
    List.pairwise_map.2 (ordered_children fs l)
  have hmem (fs : FileSystem) (top : Location) (name : String) (guise : Node.Kind × Mode) :
      (name, guise) ∈ (fs.children (top ++ names)).map look ↔
        (fs.get? (top ++ (names ++ [name]))).map Node.guise = some guise := by
    rw [List.mem_map, Option.map_eq_some_iff]
    constructor
    · rintro ⟨⟨other, node⟩, hentry, hlook⟩
      obtain ⟨rfl, rfl⟩ := Prod.mk.inj hlook
      exact ⟨node, by simpa using mem_children.1 hentry, rfl⟩
    · rintro ⟨node, hnode, rfl⟩
      exact ⟨(name, node), mem_children.2 (by simpa using hnode), rfl⟩
  have hperm : ((fs₁.children (top₁ ++ names)).map look).Perm
      ((fs₂.children (top₂ ++ names)).map look) := by
    refine (List.perm_ext_iff_of_nodup ?_ ?_).2 fun ⟨name, guise⟩ => ?_
    · exact (hordered _ _).imp fun hlt heq => by simp [heq] at hlt
    · exact (hordered _ _).imp fun hlt heq => by simp [heq] at hlt
    · rw [hmem, hmem, t.same]
  have heq := hperm.eq_of_pairwise
    (fun a b _ _ (hab : compare a.1 b.1 = .lt) hba => absurd hba (Std.OrientedCmp.not_lt_of_lt hab))
    (hordered _ _) (hordered _ _)
  rw [← List.forall₂_eq_eq_eq, List.forall₂_map_left_iff, List.forall₂_map_right_iff] at heq
  exact heq.imp fun a b hab => Prod.mk.inj hab

end Twins

end FileSystem

namespace Lookup

open FileSystem (Twins)

variable {caller : Caller} {fs fs₁ fs₂ : FileSystem} {top top₁ top₂ : Location} {follow : Bool}

/-! ## Walks -/

/-- The name that a step goes to. -/
def Step.name? : Step → Option String
  | .name text => some text
  | _ => none

/-- The names that steps go to. -/
def named (path : List Step) : Location :=
  path.filterMap Step.name?

/-- Two walks end in the same way: at nodes that look the same, or at a name that is vacant. -/
inductive Place.Twin (l₁ l₂ : Location) : Place → Place → Prop
  | occupied {a b : Node} (hguise : a.guise = b.guise) : Twin l₁ l₂ (.occupied l₁ a) (.occupied l₂ b)
  | vacant {d₁ d₂ : Location} {name : String} {slash : Bool} :
    Twin l₁ l₂ (.vacant d₁ name slash) (.vacant d₂ name slash)

/-- Directories of twin trees may be entered alike. -/
theorem enter_twins (t : Twins fs₁ top₁ fs₂ top₂) (names : Location) :
    enter caller fs₁ (top₁ ++ names) = enter caller fs₂ (top₂ ++ names) := by
  rcases t.none_or_some names with ⟨ha, hb⟩ | ⟨a, b, ha, hb, hguise, -⟩
  · rw [enter, enter, ha, hb]
  · simp only [enter, ha, hb, (Prod.mk.inj hguise).1, caller.may_eq_of_guise .enter hguise]

/-- Walks go to a name in both trees, and they go on from there alike if shorter walks do. -/
theorem walk_name_twins (t : Twins fs₁ top₁ fs₂ top₂) {links₁ links₂ : Nat} {names : Location}
    {name : String} {rest : List Step}
    (hrest : SameOutcome
      (Place.Twin (top₁ ++ ((names ++ [name]) ++ named rest)) (top₂ ++ ((names ++ [name]) ++ named rest)))
      (walk caller fs₁ follow links₁ (top₁ ++ (names ++ [name])) rest)
      (walk caller fs₂ follow links₂ (top₂ ++ (names ++ [name])) rest)) :
    SameOutcome
      (Place.Twin (top₁ ++ ((names ++ [name]) ++ named rest)) (top₂ ++ ((names ++ [name]) ++ named rest)))
      (walk caller fs₁ follow links₁ (top₁ ++ names) (.name name :: rest))
      (walk caller fs₂ follow links₂ (top₂ ++ names) (.name name :: rest)) := by
  have henter : enter caller fs₁ (top₁ ++ names) = enter caller fs₂ (top₂ ++ names) :=
    enter_twins t names
  cases hopen : enter caller fs₂ (top₂ ++ names) with
  | error e =>
      rw [walk_eq, walk_eq]
      simp only [henter, hopen]
      exact rfl
  | ok _ =>
      rw [hopen] at henter
      by_cases hlong : maxName < name.utf8ByteSize
      · rw [walk_eq, walk_eq]
        simp only [henter, hopen, if_pos hlong]
        exact rfl
      · rcases t.none_or_some (names ++ [name]) with ⟨ha, hb⟩ | ⟨a, b, ha, hb, hguise, hkind⟩
        · rw [← List.append_assoc] at ha hb
          rw [walk_name henter hlong, walk_name hopen hlong, ha, hb]
          dsimp only
          split
          · exact .vacant
          · exact .vacant
          · exact rfl
        · have hkind' : b.kind ≠ .link := (Prod.mk.inj hguise).1 ▸ hkind
          rw [← List.append_assoc] at ha hb
          rw [walk_name_node henter hlong ha hkind, walk_name_node hopen hlong hb hkind',
            List.append_assoc top₁, List.append_assoc top₂]
          exact hrest

/-- Walks in two trees that look the same end in the same way, unless they go up. -/
theorem walk_twins (t : Twins fs₁ top₁ fs₂ top₂) (caller : Caller) (follow : Bool)
    (links₁ links₂ : Nat) {path : List Step} (hpath : .up ∉ path) (names : Location) :
    SameOutcome (Place.Twin (top₁ ++ (names ++ named path)) (top₂ ++ (names ++ named path)))
      (walk caller fs₁ follow links₁ (top₁ ++ names) path)
      (walk caller fs₂ follow links₂ (top₂ ++ names) path) := by
  -- on the steps; twins have no links, so that both walks stay at the same names
  induction path generalizing names with
  | nil =>
      rw [walk_eq, walk_eq]
      rcases t.none_or_some names with ⟨ha, hb⟩ | ⟨a, b, ha, hb, hguise, -⟩
      · simp only [ha, hb]
        exact rfl
      · simp only [ha, hb, named, List.filterMap_nil, List.append_nil]
        exact .occupied hguise
  | cons step rest ih =>
      have hrest : .up ∉ rest := fun h => hpath (List.mem_cons_of_mem step h)
      cases step with
      | here =>
          rw [walk_eq, walk_eq]
          simp only [enter_twins t names]
          exact SameOutcome.refl.bind fun _ _ _ => ih hrest names
      | up => exact absurd List.mem_cons_self hpath
      | directory =>
          rw [walk_eq, walk_eq]
          rcases t.none_or_some names with ⟨ha, hb⟩ | ⟨a, b, ha, hb, hguise, -⟩
          · simp only [ha, hb]
            exact rfl
          · simp only [ha, hb, (Prod.mk.inj hguise).1]
            split
            · exact rfl
            · exact ih hrest names
      | name name =>
          have hnamed : names ++ named (.name name :: rest) = (names ++ [name]) ++ named rest := by
            simp [named, Step.name?]
          rw [hnamed]
          exact walk_name_twins t (ih hrest (names ++ [name]))

/-! ## Texts behind a path -/

/-- A text may be followed when it has no zero character and is neither empty nor too long. -/
theorem checkText_eq_ok_iff {text : String} : checkText text = .ok () ↔
    '\x00' ∉ text.toList ∧ text ≠ "" ∧ text.utf8ByteSize < maxPath := by
  rw [checkText]
  split_ifs with hnul hempty hlong
  · exact iff_of_false (by simp) fun h => h.1 (by simpa using hnul)
  · exact iff_of_false (by simp) fun h => h.2.1 (by simpa using hempty)
  · exact iff_of_false (by simp) fun h => absurd h.2.2 (Nat.not_lt.2 hlong)
  · exact iff_of_true rfl ⟨by simpa using hnul, by simpa using hempty, Nat.lt_of_not_le hlong⟩

/-- The steps of texts that follow a directory.  A slash at the very end asks for a directory. -/
def trail (texts : List String) : List Step :=
  texts.flatMap (fun t => found t.toList) ++
    if (texts.getLast?.any fun t => t.isEmpty || t.toList.getLast? == some '/') then [.directory] else []

/-- The names that texts lead to from a directory. -/
def trailed (texts : List String) : Location :=
  named (texts.flatMap fun t => found t.toList)

/-- A trail goes to the names that the texts lead to. -/
theorem named_trail (texts : List String) : named (trail texts) = trailed texts := by
  rw [trail, trailed, named, named, List.filterMap_append]
  split <;> simp [Step.name?]

/-- One text more leads to its names in addition. -/
theorem trailed_concat (texts : List String) (t : String) :
    trailed (texts ++ [t]) = trailed texts ++ named (found t.toList) := by
  simp [trailed, named]

section Trail

variable {p : Path} {texts : List String}

/-- Texts that lead down have no step upwards on their trail. -/
theorem up_notMem_trail (htexts : ∀ t ∈ texts, LeadsDown t) : .up ∉ trail texts := by
  have hfound : .up ∉ texts.flatMap fun t => found t.toList := by
    intro hup
    obtain ⟨t, ht, hup⟩ := List.mem_flatMap.1 hup
    exact (htexts t ht).up_notMem_found hup
  rw [trail, List.mem_append, not_or]
  refine ⟨hfound, ?_⟩
  split <;> simp

/-- A text that leads down is no absolute path. -/
theorem LeadsDown.isAbsolute {t : String} (h : LeadsDown t) : (⟨t⟩ : Path).isAbsolute = false := by
  simpa [Path.isAbsolute] using h.1

/-- A path that relative texts follow has the steps of the path and then those of the texts. -/
theorem found_along (hp : p.text ≠ "") (htexts : ∀ t ∈ texts, (⟨t⟩ : Path).isAbsolute = false) :
    found (p.along texts).text.toList =
      found p.text.toList ++ texts.flatMap fun t => found t.toList := by
  induction texts generalizing p with
  | nil => exact (List.append_nil _).symm
  | cons t texts ih =>
      have ht := htexts t List.mem_cons_self
      have hrest := ih (Path.text_join_ne hp ht) fun other hother =>
        htexts other (List.mem_cons_of_mem t hother)
      rw [Path.along, List.foldl_cons, ← Path.along, hrest, found_join hp ht, List.append_assoc,
        List.flatMap_cons]

/-- A text that leads down has steps unless it is empty. -/
theorem LeadsDown.found_ne_nil {t : String} (h : LeadsDown t) (hne : t ≠ "") :
    found t.toList ≠ [] := by
  cases hchars : t.toList with
  | nil => exact absurd (String.toList_eq_nil_iff.1 hchars) hne
  | cons c cs =>
      have hc : (c == '/') = false := by
        have hhead := h.1
        rw [hchars] at hhead
        simpa using hhead
      cases hcut : Text.splitWhen (· == '/') cs with
      | nil => exact absurd hcut (Text.splitWhen_ne_nil _ _)
      | cons piece more =>
          have hstep : Step.ofSegment (c :: piece) ≠ none := by
            rw [Step.ofSegment]
            split_ifs <;> simp_all
          obtain ⟨step, hstep⟩ := Option.ne_none_iff_exists'.1 hstep
          simp [found, Text.splitWhen, hc, hcut, hstep]

/-- Texts that lead down have a trail. -/
theorem trail_ne_nil (hne : texts ≠ []) (htexts : ∀ t ∈ texts, LeadsDown t) : trail texts ≠ [] := by
  obtain ⟨front, t, rfl⟩ := (List.eq_nil_or_concat' texts).resolve_left hne
  by_cases ht : t = ""
  · simp [trail, ht]
  · have hfound := (htexts t (by simp)).found_ne_nil ht
    simp [trail, hfound]

/-- The last character of a path joined with a relative text. -/
theorem getLast?_join {t : String} (hp : p.text ≠ "") (ht : (⟨t⟩ : Path).isAbsolute = false) :
    (p.join ⟨t⟩).text.toList.getLast? = if t.isEmpty then some '/' else t.toList.getLast? := by
  obtain ⟨base, hjoin, -⟩ := Path.exists_join_relative hp ht
  rw [hjoin]
  by_cases hempty : t = ""
  · simp [hempty]
  · have hchars : t.toList ≠ [] := fun h => hempty (String.toList_eq_nil_iff.1 h)
    obtain ⟨front, c, hfront⟩ := (List.eq_nil_or_concat' t.toList).resolve_left hchars
    rw [if_neg (by simpa using hempty), hfront, ← List.cons_append, ← List.append_assoc,
      List.getLast?_concat, List.getLast?_concat]

/-- A path that texts follow has the steps of their trail behind its own, unless there is nothing but
slashes. -/
theorem steps_along (hp : p.text ≠ "") (hne : texts ≠ []) (htexts : ∀ t ∈ texts, LeadsDown t) :
    steps (p.along texts).text = found p.text.toList ++ trail texts ∨
      found p.text.toList = [] ∧ steps (p.along texts).text = [] ∧ trail texts = [.directory] := by
  have hfound := found_along hp fun t ht => (htexts t ht).isAbsolute
  obtain ⟨front, t, rfl⟩ := (List.eq_nil_or_concat' texts).resolve_left hne
  have hfront : ∀ other ∈ front, (⟨other⟩ : Path).isAbsolute = false := fun other hother =>
    (htexts other (List.mem_append_left _ hother)).isAbsolute
  have hlast := getLast?_join (Path.along_spec hp hfront).1 (htexts t (by simp)).isAbsolute
  rw [← Path.along_concat] at hlast
  have hends : ((p.along (front ++ [t])).text.toList.getLast? == some '/') =
      (t.isEmpty || t.toList.getLast? == some '/') := by
    rw [hlast]
    cases t.isEmpty <;> simp
  rw [steps, ← found, hfound, hends, trail, List.getLast?_concat, Option.any_some]
  generalize (front ++ [t]).flatMap (fun t => found t.toList) = behind
  cases t.isEmpty || t.toList.getLast? == some '/' with
  | false => exact .inl (by simp)
  | true =>
      by_cases hempty : found p.text.toList ++ behind = []
      · obtain ⟨hbefore, hbehind⟩ := List.append_eq_nil_iff.1 hempty
        exact .inr ⟨hbefore, by simp [hempty], by simp [hbehind]⟩
      · refine .inl ?_
        rw [Bool.true_and, if_pos (by simpa using hempty), if_pos rfl, List.append_assoc]

/-- A piece of a text that leads down adds the name that its step goes to. -/
theorem added_eq_named {piece : List Char} (h : Step.ofSegment piece ≠ some .up) :
    Path.added piece = ((Step.ofSegment piece).bind Step.name?).toList.map .normal := by
  rw [Path.added]
  split
  · next hdropped => rcases hdropped with rfl | rfl <;> rfl
  · next hkept =>
      rw [not_or] at hkept
      rw [Step.ofSegment, if_neg (by simpa using hkept.1), if_neg hkept.2] at h ⊢
      have hparent : piece ≠ ['.', '.'] := fun heq => h (if_pos heq)
      rw [if_neg hparent]
      simp [Path.Segment.component, Path.Segment.inner, hkept.2, hparent, Step.name?]

/-- Texts that lead down add names to the components of an absolute path. -/
theorem behind_trailed (habsolute : p.isAbsolute = true) (hp : p.text ≠ "")
    (htexts : ∀ t ∈ texts, LeadsDown t) : Behind p (trailed texts) (p.along texts) := by
  obtain ⟨-, habsolute', hmoves⟩ := Path.along_spec hp fun t ht => (htexts t ht).isAbsolute
  rw [Behind, Path.components_eq_root_cons (habsolute'.trans habsolute),
    Path.components_eq_root_cons habsolute, List.cons_append, hmoves]
  congr 2
  rw [trailed, named, List.filterMap_flatMap, List.map_flatMap]
  refine List.flatMap_congr fun t ht => ?_
  rw [found, List.filterMap_filterMap, List.filterMap_eq_flatMap_toList, List.map_flatMap]
  refine List.flatMap_congr fun piece hpiece => added_eq_named fun hup => ?_
  exact (htexts t ht).up_notMem_found (List.mem_filterMap.2 ⟨piece, hpiece, hup⟩)

end Trail

/-! ## Directories that absolute paths lead to -/

/-- An absolute path leads to a directory. -/
structure Reaches (caller : Caller) (fs : FileSystem) (p : Path) (top : Location) : Prop where
  absolute : p.isAbsolute = true
  leads : ∃ node, find caller fs true p = .ok (top, node) ∧ node.kind = .directory

section Reaches

variable {p p₁ p₂ : Path} {texts : List String}

/-- A path that reaches a directory may be followed. -/
theorem Reaches.checkText (h : Reaches caller fs p top) : checkText p.text = .ok () := by
  obtain ⟨node, hfind, -⟩ := h.leads
  exact (find_eq_ok_iff.1 hfind).1

/-- A path that reaches a directory is not empty. -/
theorem Reaches.text_ne (h : Reaches caller fs p top) : p.text ≠ "" :=
  (of_checkText_ok h.checkText).1

/-- A path that reaches a directory is followed from the root. -/
theorem Reaches.start_eq (h : Reaches caller fs p top) : start caller p.text = [] := by
  have habsolute : (p.text.toList.head? == some '/') = true := h.absolute
  rw [start, if_pos habsolute]

/-- A path that reaches a directory leads to one. -/
theorem Reaches.isDirectory (h : Reaches caller fs p top) : fs.isDirectory caller p = true := by
  obtain ⟨node, hfind, hkind⟩ := h.leads
  rw [FileSystem.isDirectory, FileSystem.stat, hfind]
  simpa [Except.map] using hkind

/-- A path that reaches a directory leads somewhere. -/
theorem Reaches.reaches (h : Reaches caller fs p top) : fs.reaches caller p = true := by
  obtain ⟨node, hfind, -⟩ := h.leads
  rw [FileSystem.reaches, FileSystem.stat, hfind]
  rfl

/-- A directory that may be read has its entries listed. -/
theorem Reaches.readDirectory (h : Reaches caller fs p top)
    (hread : ∀ node, find caller fs true p = .ok (top, node) → caller.may .read node = true) :
    fs.readDirectory caller p = .ok (fs.children top) := by
  obtain ⟨node, hfind, hkind⟩ := h.leads
  have hmay := hread node hfind
  rw [FileSystem.readDirectory, hfind]
  simp [bind, Except.bind, pure, Except.pure, hkind, hmay]

/-- A path to a directory leads there without a slash at its end, too. -/
theorem Reaches.walk_found (h : Reaches caller fs p top) : ∃ node, node.kind = .directory ∧
    find caller fs true p = .ok (top, node) ∧
    walk caller fs true maxLinks [] (found p.text.toList) = .ok (.occupied top node) := by
  obtain ⟨node, hfind, hkind⟩ := h.leads
  have hwalk := (find_eq_ok_iff.1 hfind).2
  refine ⟨node, hkind, hfind, ?_⟩
  rw [← h.start_eq]
  rcases steps_eq p.text with hsteps | hsteps <;> rw [hsteps] at hwalk
  · exact hwalk
  · have hdrops := (Drops.drop (s := .directory) rfl .nil).append (found p.text.toList)
    rw [List.append_nil] at hdrops
    exact walk_drops_occupied hdrops hwalk

/-- A walk without steps ends at the node where it began. -/
theorem walk_stay {links : Nat} {node : Node} (hnode : fs.get? top = some node) :
    walk caller fs follow links top [] = .ok (.occupied top node) := by
  rw [walk_eq, hnode]

/-- An absolute path leads to a directory where its steps do. -/
theorem reaches_of_walk {node : Node} (habsolute : p.isAbsolute = true)
    (htext : Lookup.checkText p.text = .ok ()) (hkind : node.kind = .directory)
    (hwalk : walk caller fs true maxLinks [] (found p.text.toList) = .ok (.occupied top node)) :
    Reaches caller fs p top := by
  have hstart : start caller p.text = [] := if_pos habsolute
  refine ⟨habsolute, node, find_eq_ok_iff.2 ⟨htext, ?_⟩, hkind⟩
  rw [hstart]
  rcases steps_eq p.text with hsteps | hsteps <;> rw [hsteps]
  · exact hwalk
  · obtain ⟨links, hbehind⟩ := exists_walk_behind hwalk
    rw [hbehind true _ (by simp)]
    exact (Walks.directory (get?_of_walk hwalk) hkind (.nil (get?_of_walk hwalk))).walk_eq_ok

/-- Behind a path to a directory, texts are followed from the directory. -/
theorem Reaches.exists_walk (h : Reaches caller fs p top) :
    ∃ links, ∀ follow texts, (texts ≠ [] ∨ follow = true) → (∀ t ∈ texts, LeadsDown t) →
      Lookup.checkText (p.along texts).text = .ok () →
      locate caller fs follow (p.along texts) = walk caller fs follow links top (trail texts) := by
  obtain ⟨node, hkind, hfind, hfound⟩ := h.walk_found
  have hnode := get?_of_find hfind
  obtain ⟨links, hbehind⟩ := exists_walk_behind hfound
  refine ⟨links, fun follow texts hsome htexts htext => ?_⟩
  by_cases hne : texts = []
  · obtain rfl := hsome.resolve_left (not_not.2 hne)
    subst hne
    exact (locate_of_find hfind).trans (walk_stay hnode).symm
  · have habsolute := (Path.along_spec h.text_ne fun t ht => (htexts t ht).isAbsolute).2.1
    rw [locate, htext, Lookup.start_eq habsolute, h.start_eq]
    rcases steps_along h.text_ne hne htexts with hsteps | ⟨hnil, hsteps, htrail⟩
    · rw [hsteps]
      exact hbehind follow _ (trail_ne_nil hne htexts)
    · -- the path is the root of the file system and slashes
      rw [hnil] at hfound
      obtain ⟨rfl, -⟩ := of_walk_nil_ok hfound
      rw [hsteps, htrail]
      refine (walk_stay hnode).trans (Walks.walk_eq_ok ?_).symm
      exact .directory hnode hkind (.nil hnode)

/-- The text of a path that texts follow is sound if the path is, the texts are and it is not too
long. -/
theorem Reaches.checkText_along (h : Reaches caller fs p top) (htexts : ∀ t ∈ texts, LeadsDown t)
    (hshort : p.text.utf8ByteSize + Path.sizes texts + texts.length < maxPath) :
    Lookup.checkText (p.along texts).text =
      if texts.any fun t => t.toList.contains '\x00' then .error .nulInPath else .ok () := by
  have hrelative : ∀ t ∈ texts, (⟨t⟩ : Path).isAbsolute = false := fun t ht => (htexts t ht).isAbsolute
  have hsize := Path.size_along_le p texts
  have hempty := (Path.along_spec h.text_ne hrelative).1
  have hnone : '\x00' ∉ p.text.toList := (checkText_eq_ok_iff.1 h.checkText).1
  have hnul : ('\x00' ∈ (p.along texts).text.toList) ↔ ∃ t ∈ texts, '\x00' ∈ t.toList := by
    rw [Path.mem_along_iff (by decide) h.text_ne hrelative]
    exact or_iff_right hnone
  rw [Lookup.checkText]
  by_cases hany : ∃ t ∈ texts, '\x00' ∈ t.toList
  · rw [if_pos (by simpa using hnul.2 hany), if_pos (by simpa using hany)]
  · rw [if_neg (by simpa using fun h => hany (hnul.1 h)), if_neg (by simpa using hempty),
      if_neg (by omega), if_neg (by simpa using hany)]

end Reaches

/-! ## The same questions below two directories -/

/-- Two absolute paths lead to trees that look the same. -/
structure Paired (caller : Caller) (fs₁ : FileSystem) (p₁ : Path) (top₁ : Location) (fs₂ : FileSystem)
    (p₂ : Path) (top₂ : Location) : Prop where
  twins : Twins fs₁ top₁ fs₂ top₂
  first : Reaches caller fs₁ p₁ top₁
  second : Reaches caller fs₂ p₂ top₂

/-- Texts may follow two paths without making them too long. -/
def Short (p₁ p₂ : Path) (texts : List String) : Prop :=
  p₁.text.utf8ByteSize + Path.sizes texts + texts.length < maxPath ∧
    p₂.text.utf8ByteSize + Path.sizes texts + texts.length < maxPath

namespace Paired

variable {p₁ p₂ : Path} {texts : List String}

/-- Texts lead to the same names below both paths. -/
theorem find_twins (h : Paired caller fs₁ p₁ top₁ fs₂ p₂ top₂) (follow : Bool)
    (hshort : Short p₁ p₂ texts) (htexts : ∀ t ∈ texts, LeadsDown t)
    (hsome : texts ≠ [] ∨ follow = true) :
    SameOutcome (fun a b => a.1 = top₁ ++ trailed texts ∧ b.1 = top₂ ++ trailed texts ∧
        a.2.guise = b.2.guise)
      (find caller fs₁ follow (p₁.along texts)) (find caller fs₂ follow (p₂.along texts)) := by
  have htext₁ := h.first.checkText_along htexts hshort.1
  have htext₂ := h.second.checkText_along htexts hshort.2
  by_cases hnul : (texts.any fun t => t.toList.contains '\x00') = true
  · rw [if_pos hnul] at htext₁ htext₂
    rw [find, locate, htext₁, find, locate, htext₂]
    exact rfl
  · rw [if_neg hnul] at htext₁ htext₂
    obtain ⟨links₁, hwalk₁⟩ := h.first.exists_walk
    obtain ⟨links₂, hwalk₂⟩ := h.second.exists_walk
    have hwalks := walk_twins h.twins caller follow links₁ links₂ (up_notMem_trail htexts) []
    rw [List.append_nil, List.append_nil, List.nil_append, named_trail] at hwalks
    rw [find, hwalk₁ follow texts hsome htexts htext₁, find, hwalk₂ follow texts hsome htexts htext₂]
    refine hwalks.bind fun a b hab => ?_
    cases hab with
    | occupied hguise => exact ⟨rfl, rfl, hguise⟩
    | vacant => exact rfl

/-- Looking at a node succeeds alike behind paths that lead to twin trees. -/
theorem isOk_lstat (h : Paired caller fs₁ p₁ top₁ fs₂ p₂ top₂) (hshort : Short p₁ p₂ texts)
    (htexts : ∀ t ∈ texts, LeadsDown t) (hne : texts ≠ []) :
    (fs₁.lstat caller (p₁.along texts)).isOk = (fs₂.lstat caller (p₂.along texts)).isOk := by
  rw [FileSystem.lstat, FileSystem.lstat]
  rcases (h.find_twins false hshort htexts (.inl hne)).error_or_ok with
    ⟨e, he, he'⟩ | ⟨a, b, ha, hb, -⟩
  · rw [he, he']
  · rw [ha, hb]
    rfl

/-- Texts lead anywhere alike behind paths that lead to twin trees. -/
theorem reaches_eq (h : Paired caller fs₁ p₁ top₁ fs₂ p₂ top₂) (hshort : Short p₁ p₂ texts)
    (htexts : ∀ t ∈ texts, LeadsDown t) :
    fs₁.reaches caller (p₁.along texts) = fs₂.reaches caller (p₂.along texts) := by
  rw [FileSystem.reaches, FileSystem.stat, FileSystem.reaches, FileSystem.stat]
  rcases (h.find_twins true hshort htexts (.inr rfl)).error_or_ok with ⟨e, he, he'⟩ | ⟨a, b, ha, hb, -⟩
  · rw [he, he']
  · rw [ha, hb]
    rfl

/-- Texts lead to a directory alike behind paths that lead to twin trees. -/
theorem isDirectory_eq (h : Paired caller fs₁ p₁ top₁ fs₂ p₂ top₂) (hshort : Short p₁ p₂ texts)
    (htexts : ∀ t ∈ texts, LeadsDown t) :
    fs₁.isDirectory caller (p₁.along texts) = fs₂.isDirectory caller (p₂.along texts) := by
  rw [FileSystem.isDirectory, FileSystem.stat, FileSystem.isDirectory, FileSystem.stat]
  rcases (h.find_twins true hshort htexts (.inr rfl)).error_or_ok with
    ⟨e, he, he'⟩ | ⟨a, b, ha, hb, -, -, hguise⟩
  · rw [he, he']
  · rw [ha, hb]
    simp only [Except.map, (Prod.mk.inj hguise).1]

/-- Where a directory can be listed below both paths, it has the same entries. -/
theorem readDirectory_twins (h : Paired caller fs₁ p₁ top₁ fs₂ p₂ top₂) (hshort : Short p₁ p₂ texts)
    (htexts : ∀ t ∈ texts, LeadsDown t) :
    SameOutcome (fun a b => a = fs₁.children (top₁ ++ trailed texts) ∧
        b = fs₂.children (top₂ ++ trailed texts))
      (fs₁.readDirectory caller (p₁.along texts)) (fs₂.readDirectory caller (p₂.along texts)) := by
  rw [FileSystem.readDirectory, FileSystem.readDirectory]
  refine (h.find_twins true hshort htexts (.inr rfl)).bind ?_
  rintro ⟨l₁, a⟩ ⟨l₂, b⟩ ⟨rfl, rfl, hguise⟩
  simp only [(Prod.mk.inj hguise).1, caller.may_eq_of_guise .read hguise]
  split
  · exact rfl
  · split
    · exact rfl
    · exact ⟨rfl, rfl⟩

end Paired

end Lookup

end RpmRelease
