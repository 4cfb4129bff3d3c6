import RpmRelease.Proofs.Path
import RpmRelease.Proofs.Run
import RpmRelease.FileSystem.Lookup

/-!
# Following longer paths and changed files

Three facts about following a path.  A walk that goes on has first walked to some place, and from
there any other continuation goes its own way.  So a path joined with a name leads from where the
path led to the entry of that name.  And a file that is put where a walk ends does not change the
walk, because no step goes through a file.
-/

set_option autoImplicit false

namespace RpmRelease

namespace Lookup

variable {caller : Caller} {fs : FileSystem}

/-! ## One step by name -/

/-- Where the target of a link is followed from. -/
def origin (l : Location) (target : String) : Location :=
  if target.toList.head? == some '/' then [] else l

/-- How the first step of a walk is taken. -/
theorem walk_eq (follow : Bool) (links : Nat) (l : Location) (path : List Step) :
    walk caller fs follow links l path =
      (match path with
      | [] =>
        match fs.get? l with
        | some node => .ok (.occupied l node)
        | none => .error (.system .noEntry)
      | .directory :: rest =>
        match fs.get? l with
        | some node =>
          if node.kind != .directory then .error (.system .notDirectory)
          else walk caller fs follow links l rest
        | none => .error (.system .noEntry)
      | .here :: rest => do
        enter caller fs l
        walk caller fs follow links l rest
      | .up :: rest => do
        enter caller fs l
        walk caller fs follow links l.dropLast rest
      | .name name :: rest => do
        enter caller fs l
        if maxName < name.utf8ByteSize then throw (.system .nameTooLong)
        match fs.get? (l ++ [name]) with
        | none =>
          match rest with
          | [] => return .vacant l name false
          | [.directory] => return .vacant l name true
          | _ => throw (.system .noEntry)
        | some (.link target time) =>
          if rest.isEmpty && !follow then return .occupied (l ++ [name]) (.link target time)
          else
            match links with
            | 0 => throw (.system .tooManyLinks)
            | links + 1 => walk caller fs follow links (origin l target) (steps target ++ rest)
        | some _ => walk caller fs follow links (l ++ [name]) rest) := by
  cases path with
  | nil => cases links <;> rfl
  | cons step rest => cases step <;> cases links <;> rfl

/-- What a step by name does in a directory that the caller may enter. -/
theorem walk_name {follow : Bool} {links : Nat} {l : Location} {name : String} {rest : List Step}
    (henter : enter caller fs l = .ok ()) (hname : ¬ maxName < name.utf8ByteSize) :
    walk caller fs follow links l (.name name :: rest) =
      match fs.get? (l ++ [name]) with
      | none =>
        match rest with
        | [] => .ok (.vacant l name false)
        | [.directory] => .ok (.vacant l name true)
        | _ => .error (.system .noEntry)
      | some (.link target time) =>
        if rest.isEmpty && !follow then .ok (.occupied (l ++ [name]) (.link target time))
        else
          match links with
          | 0 => .error (.system .tooManyLinks)
          | links + 1 => walk caller fs follow links (origin l target) (steps target ++ rest)
      | some _ => walk caller fs follow links (l ++ [name]) rest := by
  rw [walk_eq]
  simp only [henter, bind, Except.bind, if_neg hname]
  rfl

/-- A walk that goes on by a name is in a directory that may be entered, and the name is not too long.
-/
theorem of_walk_name_ok {follow : Bool} {links : Nat} {l : Location} {name : String}
    {rest : List Step} {place : Place}
    (h : walk caller fs follow links l (.name name :: rest) = .ok place) :
    enter caller fs l = .ok () ∧ ¬ maxName < name.utf8ByteSize := by
  rw [walk_eq] at h
  obtain ⟨_, henter, h⟩ := Run.of_bind_ok h
  exact ⟨henter, (Run.of_check_ok h).1⟩

/-- A walk goes on from what stands at a name, if that is no link. -/
theorem walk_name_node {follow : Bool} {links : Nat} {l : Location} {name : String}
    {rest : List Step} {node : Node} (henter : enter caller fs l = .ok ())
    (hname : ¬ maxName < name.utf8ByteSize) (hnode : fs.get? (l ++ [name]) = some node)
    (hkind : node.kind ≠ .link) :
    walk caller fs follow links l (.name name :: rest) =
      walk caller fs follow links (l ++ [name]) rest := by
  rw [walk_name henter hname, hnode]
  cases node with
  | directory => rfl
  | file => rfl
  | link => exact absurd rfl hkind

/-- A link is followed when steps come behind it or the walk follows links at the end. -/
theorem isEmpty_and_not_eq_false {rest : List Step} {follow : Bool}
    (h : rest ≠ [] ∨ follow = true) : (rest.isEmpty && !follow) = false := by
  rcases h with hrest | rfl
  · simp [hrest]
  · simp

/-- A step by name to a link goes on with the target of the link. -/
theorem walk_name_link {follow : Bool} {links : Nat} {l : Location} {name target : String}
    {time : Int} {rest : List Step} (henter : enter caller fs l = .ok ())
    (hname : ¬ maxName < name.utf8ByteSize)
    (hnode : fs.get? (l ++ [name]) = some (.link target time)) (hrest : rest ≠ [] ∨ follow = true) :
    walk caller fs follow (links + 1) l (.name name :: rest) =
      walk caller fs follow links (origin l target) (steps target ++ rest) := by
  rw [walk_name henter hname, hnode]
  simp only [isEmpty_and_not_eq_false hrest]
  rfl

/-- Where a step by name leads: to a vacant name, to a link taken as it is, through a link, or to
another node. -/
theorem cases_walk_name {follow : Bool} {links : Nat} {l : Location} {name : String}
    {rest : List Step} {place : Place}
    (h : walk caller fs follow links l (.name name :: rest) = .ok place) :
    (fs.get? (l ++ [name]) = none ∧ ∃ slash, place = .vacant l name slash ∧
      rest = if slash then [.directory] else []) ∨
    (∃ target time, fs.get? (l ++ [name]) = some (.link target time) ∧ rest = [] ∧ follow = false ∧
      place = .occupied (l ++ [name]) (.link target time)) ∨
    (∃ target time links', fs.get? (l ++ [name]) = some (.link target time) ∧ links = links' + 1 ∧
      (rest ≠ [] ∨ follow = true) ∧
      walk caller fs follow links' (origin l target) (steps target ++ rest) = .ok place) ∨
    (∃ node, fs.get? (l ++ [name]) = some node ∧ node.kind ≠ .link ∧
      walk caller fs follow links (l ++ [name]) rest = .ok place) := by
  obtain ⟨henter, hname⟩ := of_walk_name_ok h
  cases hnode : fs.get? (l ++ [name]) with
  | none =>
      rw [walk_name henter hname, hnode] at h
      simp only at h
      refine Or.inl ⟨rfl, ?_⟩
      split at h
      · exact ⟨false, by simpa using h.symm, rfl⟩
      · exact ⟨true, by simpa using h.symm, rfl⟩
      · simp at h
  | some node =>
      by_cases hkind : node.kind = .link
      · obtain ⟨target, time, rfl⟩ : ∃ target time, node = .link target time := by
          cases node with
          | link target time => exact ⟨target, time, rfl⟩
          | directory => simp [Node.kind] at hkind
          | file => simp [Node.kind] at hkind
        -- a link in the middle is always followed, one at the end if the walk says so
        by_cases hrest : rest ≠ [] ∨ follow = true
        · cases links with
          | zero =>
              rw [walk_name henter hname, hnode] at h
              simp [isEmpty_and_not_eq_false hrest] at h
          | succ links =>
              rw [walk_name_link henter hname hnode hrest] at h
              exact Or.inr (Or.inr (Or.inl ⟨target, time, links, rfl, rfl, hrest, h⟩))
        · obtain ⟨rfl, rfl⟩ : rest = [] ∧ follow = false := by simpa using hrest
          rw [walk_name henter hname, hnode] at h
          exact Or.inr (Or.inl ⟨target, time, rfl, rfl, rfl, by simpa using h.symm⟩)
      · rw [walk_name_node henter hname hnode hkind] at h
        exact Or.inr (Or.inr (Or.inr ⟨node, rfl, hkind, h⟩))

/-- A walk without steps ends where it began, at the node there. -/
theorem of_walk_nil_ok {follow : Bool} {links : Nat} {l k : Location} {node : Node}
    (h : walk caller fs follow links l [] = .ok (.occupied k node)) :
    l = k ∧ fs.get? k = some node := by
  rw [walk_eq] at h
  cases hnode : fs.get? l with
  | none => simp [hnode] at h
  | some here =>
      obtain ⟨rfl, rfl⟩ : l = k ∧ here = node := by simpa [hnode] using h
      exact ⟨rfl, hnode⟩

/-- A slash asks for a directory and stays there. -/
theorem of_walk_directory_ok {follow : Bool} {links : Nat} {l : Location} {rest : List Step}
    {place : Place} (h : walk caller fs follow links l (.directory :: rest) = .ok place) :
    (∃ node, fs.get? l = some node ∧ node.kind = .directory) ∧
      ∀ follow' other, walk caller fs follow' links l (.directory :: other) =
        walk caller fs follow' links l other := by
  cases hnode : fs.get? l with
  | none =>
      rw [walk_eq] at h
      simp [hnode] at h
  | some node =>
      by_cases hkind : (node.kind != .directory) = true
      · rw [walk_eq] at h
        simp only [hnode, if_pos hkind] at h
        simp at h
      · refine ⟨⟨node, rfl, by simpa using hkind⟩, fun follow' other => ?_⟩
        rw [walk_eq]
        simp only [hnode, if_neg hkind]

/-! ## Walks that lead somewhere -/

/-- How a walk leads to a place, with one rule for each way in which a step is taken. -/
inductive Walks (caller : Caller) (fs : FileSystem) (follow : Bool) :
    Nat → Location → List Step → Place → Prop
  | nil {links : Nat} {l : Location} {node : Node} (hnode : fs.get? l = some node) :
    Walks caller fs follow links l [] (.occupied l node)
  | here {links : Nat} {l : Location} {rest : List Step} {place : Place}
    (henter : enter caller fs l = .ok ()) (h : Walks caller fs follow links l rest place) :
    Walks caller fs follow links l (.here :: rest) place
  | up {links : Nat} {l : Location} {rest : List Step} {place : Place}
    (henter : enter caller fs l = .ok ()) (h : Walks caller fs follow links l.dropLast rest place) :
    Walks caller fs follow links l (.up :: rest) place
  | directory {links : Nat} {l : Location} {rest : List Step} {place : Place} {node : Node}
    (hnode : fs.get? l = some node) (hkind : node.kind = .directory)
    (h : Walks caller fs follow links l rest place) :
    Walks caller fs follow links l (.directory :: rest) place
  | vacant {links : Nat} {l : Location} {name : String} {rest : List Step} {slash : Bool}
    (henter : enter caller fs l = .ok ()) (hname : ¬ maxName < name.utf8ByteSize)
    (hnone : fs.get? (l ++ [name]) = none) (hrest : rest = if slash then [.directory] else []) :
    Walks caller fs follow links l (.name name :: rest) (.vacant l name slash)
  | link {links : Nat} {l : Location} {name target : String} {time : Int}
    (henter : enter caller fs l = .ok ()) (hname : ¬ maxName < name.utf8ByteSize)
    (hnode : fs.get? (l ++ [name]) = some (.link target time)) (hfollow : follow = false) :
    Walks caller fs follow links l [.name name] (.occupied (l ++ [name]) (.link target time))
  | through {links : Nat} {l : Location} {name target : String} {time : Int} {rest : List Step}
    {place : Place} (henter : enter caller fs l = .ok ()) (hname : ¬ maxName < name.utf8ByteSize)
    (hnode : fs.get? (l ++ [name]) = some (.link target time)) (hrest : rest ≠ [] ∨ follow = true)
    (h : Walks caller fs follow links (origin l target) (steps target ++ rest) place) :
    Walks caller fs follow (links + 1) l (.name name :: rest) place
  | node {links : Nat} {l : Location} {name : String} {rest : List Step} {place : Place}
    {node : Node} (henter : enter caller fs l = .ok ()) (hname : ¬ maxName < name.utf8ByteSize)
    (hnode : fs.get? (l ++ [name]) = some node) (hkind : node.kind ≠ .link)
    (h : Walks caller fs follow links (l ++ [name]) rest place) :
    Walks caller fs follow links l (.name name :: rest) place

/-- A walk that leads to a place is one of the ways that there are. -/
theorem walks_of_walk {follow : Bool} {links : Nat} {l : Location} {path : List Step} {place : Place}
    (h : walk caller fs follow links l path = .ok place) :
    Walks caller fs follow links l path place := by
  -- links followed on the way put their targets in front, so the links are counted down first
  induction links using Nat.strongRecOn generalizing l path with
  | ind links ihLinks =>
      induction path generalizing l with
      | nil =>
          rw [walk_eq] at h
          cases hnode : fs.get? l with
          | none => simp [hnode] at h
          | some node =>
              obtain rfl : .occupied l node = place := by simpa [hnode] using h
              exact .nil hnode
      | cons step rest ih =>
          cases step with
          | here =>
              rw [walk_eq] at h
              obtain ⟨_, henter, h⟩ := Run.of_bind_ok h
              exact .here henter (ih h)
          | up =>
              rw [walk_eq] at h
              obtain ⟨_, henter, h⟩ := Run.of_bind_ok h
              exact .up henter (ih h)
          | directory =>
              obtain ⟨⟨node, hnode, hkind⟩, hstay⟩ := of_walk_directory_ok h
              rw [hstay] at h
              exact .directory hnode hkind (ih h)
          | name name =>
              obtain ⟨henter, hname⟩ := of_walk_name_ok h
              rcases cases_walk_name h with ⟨hnone, slash, rfl, hrest⟩ |
                ⟨target, time, hnode, rfl, hfollow, rfl⟩ |
                ⟨target, time, fewer, hnode, rfl, hrest, h⟩ | ⟨node, hnode, hkind, h⟩
              · exact .vacant henter hname hnone hrest
              · exact .link henter hname hnode hfollow
              · exact .through henter hname hnode hrest (ihLinks fewer (Nat.lt_succ_self _) h)
              · exact .node henter hname hnode hkind (ih h)

/-- Each way that there is leads a walk to its place. -/
theorem Walks.walk_eq_ok {follow : Bool} {links : Nat} {l : Location} {path : List Step}
    {place : Place} (h : Walks caller fs follow links l path place) :
    walk caller fs follow links l path = .ok place := by
  induction h with
  | nil hnode =>
      rw [walk_eq]
      simp only [hnode]
  | here henter _ ih | up henter _ ih =>
      rw [walk_eq]
      simp only [henter]
      exact ih
  | directory hnode hkind _ ih =>
      rw [walk_eq]
      simp only [hnode, hkind]
      exact ih
  | @vacant _ _ _ _ slash henter hname hnone hrest =>
      rw [walk_name henter hname, hnone, hrest]
      cases slash <;> rfl
  | link henter hname hnode hfollow =>
      rw [walk_name henter hname, hnode, hfollow]
      rfl
  | through henter hname hnode hrest _ ih =>
      rw [walk_name_link henter hname hnode hrest]
      exact ih
  | node henter hname hnode hkind _ ih =>
      rw [walk_name_node henter hname hnode hkind]
      exact ih

/-- A walk leads to a place just when some rules lead there. -/
theorem walk_eq_ok_iff {follow : Bool} {links : Nat} {l : Location} {path : List Step}
    {place : Place} : walk caller fs follow links l path = .ok place ↔
      Walks caller fs follow links l path place :=
  ⟨walks_of_walk, Walks.walk_eq_ok⟩

/-! ## Walks that go on -/

/-- A walk that goes on to a node has first come to some place; from there, every other continuation
goes on by itself. -/
theorem walk_append {follow : Bool} {links : Nat} {l k : Location} {front rest : List Step}
    {node : Node} (hrest : rest ≠ [] ∨ follow = true)
    (h : walk caller fs follow links l (front ++ rest) = .ok (.occupied k node)) :
    ∃ links' m, walk caller fs follow links' m rest = .ok (.occupied k node) ∧
      ∀ follow' other, other ≠ [] → walk caller fs follow' links l (front ++ other) =
        walk caller fs follow' links' m other := by
  -- links followed on the way put their targets in front, so the links are counted down first
  induction links using Nat.strongRecOn generalizing l front with
  | ind links ihLinks =>
      induction front generalizing l with
      | nil => exact ⟨links, l, h, fun _ _ _ => rfl⟩
      | cons step front ih =>
          rw [List.cons_append] at h
          cases step with
          | here =>
              rw [walk_eq] at h
              obtain ⟨_, henter, h⟩ := Run.of_bind_ok h
              obtain ⟨links', m, hend, hother⟩ := ih h
              refine ⟨links', m, hend, fun follow' other hne => ?_⟩
              rw [← hother follow' other hne, List.cons_append, walk_eq]
              simp only [henter]
              rfl
          | up =>
              rw [walk_eq] at h
              obtain ⟨_, henter, h⟩ := Run.of_bind_ok h
              obtain ⟨links', m, hend, hother⟩ := ih h
              refine ⟨links', m, hend, fun follow' other hne => ?_⟩
              rw [← hother follow' other hne, List.cons_append, walk_eq]
              simp only [henter]
              rfl
          | directory =>
              obtain ⟨_, hstay⟩ := of_walk_directory_ok h
              rw [hstay] at h
              obtain ⟨links', m, hend, hother⟩ := ih h
              refine ⟨links', m, hend, fun follow' other hne => ?_⟩
              rw [← hother follow' other hne, List.cons_append, hstay]
          | name name =>
              obtain ⟨henter, hname⟩ := of_walk_name_ok h
              rcases cases_walk_name h with ⟨_, slash, hplace, _⟩ | ⟨_, _, _, hnil, hfollow, _⟩ |
                ⟨target, time, fewer, hnode, rfl, _, h⟩ | ⟨other, hnode, hkind, h⟩
              · simp at hplace
              · rcases hrest with hrest | hrest
                · exact absurd (List.append_eq_nil_iff.1 hnil).2 hrest
                · simp [hrest] at hfollow
              · rw [← List.append_assoc] at h
                obtain ⟨links', m, hend, hother⟩ := ihLinks fewer (Nat.lt_succ_self _) h
                refine ⟨links', m, hend, fun follow' other hne => ?_⟩
                rw [← hother follow' other hne, List.cons_append,
                  walk_name_link henter hname hnode (by simp [hne]), List.append_assoc]
              · obtain ⟨links', m, hend, hother⟩ := ih h
                refine ⟨links', m, hend, fun follow' other hne => ?_⟩
                rw [← hother follow' other hne, List.cons_append,
                  walk_name_node henter hname hnode hkind]

/-! ## A path joined with a name -/

/-- The steps of a text without the one that a slash at its end asks for. -/
def found (cs : List Char) : List Step :=
  (Text.splitWhen (· == '/') cs).filterMap Step.ofSegment

/-- A text has the steps that are found in it, and perhaps one more for a slash at its end. -/
theorem steps_eq (path : String) : steps path = found path.toList ∨
    steps path = found path.toList ++ [.directory] := by
  simp only [steps, found]
  split
  · exact Or.inr rfl
  · exact Or.inl rfl

/-- The steps of two texts with a slash between them are those of the first and then those of the
second. -/
theorem found_append (cs ds : List Char) : found (cs ++ '/' :: ds) = found cs ++ found ds := by
  rw [found, Text.splitWhen_append_cons cs ds (by decide), List.filterMap_append]
  rfl

/-- A name is a single step. -/
theorem found_name {name : String} (hname : Path.IsName name) :
    found name.toList = [.name name] := by
  rw [found, Path.splitWhen_of_no_slash hname.no_slash]
  simp [Step.ofSegment, hname.chars_ne_nil, hname.chars_ne_current, hname.chars_ne_parent]

/-- A path joined with a relative one leads by the steps of both. -/
theorem found_join {p q : Path} (hp : p.text ≠ "") (hq : q.isAbsolute = false) :
    found (p.join q).text.toList = found p.text.toList ++ found q.text.toList := by
  obtain ⟨base, hjoin, hbase⟩ := Path.exists_join_relative hp hq
  rw [hjoin, found_append]
  rcases hbase with hbase | ⟨hbase, _⟩
  · rw [hbase, found_append]
    exact congrArg (· ++ _) (List.append_nil _).symm
  · rw [hbase]

/-- A path joined with a name has the steps of the path and then the name. -/
theorem steps_join {p : Path} {name : String} (hp : p.text ≠ "") (hname : Path.IsName name) :
    steps (p.join ⟨name⟩).text = found p.text.toList ++ [.name name] := by
  have hfound := found_join hp (Path.isAbsolute_of_no_slash hname.no_slash)
  rw [found_name hname] at hfound
  have hlast := (Path.join_last hp hname).2
  unfold steps
  rw [← found, hfound, if_neg (by simp [hlast])]

/-- Where a path is followed from depends on nothing but whether it is absolute. -/
theorem start_eq {p q : Path} (h : p.isAbsolute = q.isAbsolute) :
    start caller p.text = start caller q.text := by
  simp only [Path.isAbsolute] at h
  rw [start, start, h]

/-- A path joined with a name is followed from where the path is. -/
theorem start_join {p : Path} {name : String} (hp : p.text ≠ "") (hname : '/' ∉ name.toList) :
    start caller (p.join ⟨name⟩).text = start caller p.text :=
  start_eq (Path.isAbsolute_join hp (Path.isAbsolute_of_no_slash hname))

/-- A path leads to a node when its text is sound and the walk ends there. -/
theorem find_eq_ok_iff {follow : Bool} {path : Path} {l : Location} {node : Node} :
    find caller fs follow path = .ok (l, node) ↔ checkText path.text = .ok () ∧
      walk caller fs follow maxLinks (start caller path.text) (steps path.text) =
        .ok (.occupied l node) := by
  constructor
  · intro h
    obtain ⟨place, hlocate, h⟩ := Run.of_bind_ok h
    obtain ⟨_, htext, hwalk⟩ := Run.of_bind_ok hlocate
    cases place with
    | occupied l' node' =>
        obtain ⟨rfl, rfl⟩ : l' = l ∧ node' = node := by
          simpa [pure, Except.pure] using h
        exact ⟨htext, hwalk⟩
    | vacant => exact absurd (show (Except.error _ : Except FileError _) = _ from h) (by simp)
  · rintro ⟨htext, hwalk⟩
    unfold find locate
    simp only [htext, bind, Except.bind, hwalk]
    rfl

/-- What a path leads to is located by it. -/
theorem locate_of_find {follow : Bool} {path : Path} {l : Location} {node : Node}
    (h : find caller fs follow path = .ok (l, node)) :
    locate caller fs follow path = .ok (.occupied l node) := by
  obtain ⟨htext, hwalk⟩ := find_eq_ok_iff.1 h
  rw [locate, htext]
  exact hwalk

/-- A text that may be followed is neither empty nor too long. -/
theorem of_checkText_ok {text : String} (h : checkText text = .ok ()) :
    text ≠ "" ∧ text.utf8ByteSize < maxPath := by
  rw [checkText] at h
  split at h
  · simp at h
  · split at h
    · simp at h
    · split at h
      · simp at h
      · next hempty hlong => exact ⟨by simpa using hempty, by omega⟩

/-- A walk that ends at a node that is no link ends there with links followed, too. -/
theorem walk_follow {links : Nat} {l k : Location} {path : List Step} {node : Node}
    (hkind : node.kind ≠ .link) (h : walk caller fs false links l path = .ok (.occupied k node)) :
    walk caller fs true links l path = .ok (.occupied k node) := by
  rw [walk_eq_ok_iff] at h ⊢
  generalize hplace : Place.occupied k node = place at h
  induction h with
  | nil hnode => exact .nil hnode
  | here henter _ ih => exact .here henter (ih hplace)
  | up henter _ ih => exact .up henter (ih hplace)
  | directory hnode hdirectory _ ih => exact .directory hnode hdirectory (ih hplace)
  | vacant => cases hplace
  | link =>
      cases hplace
      exact absurd rfl hkind
  | through henter hname hnode _ _ ih => exact .through henter hname hnode (.inr rfl) (ih hplace)
  | node henter hname hnode hother _ ih => exact .node henter hname hnode hother (ih hplace)

/-- Following links at the end makes no difference where no link stands. -/
theorem find_follow {path : Path} {l : Location} {node : Node} (hkind : node.kind ≠ .link)
    (h : find caller fs false path = .ok (l, node)) : find caller fs true path = .ok (l, node) := by
  obtain ⟨htext, hwalk⟩ := find_eq_ok_iff.1 h
  exact find_eq_ok_iff.2 ⟨htext, walk_follow hkind hwalk⟩

/-- The node at the end of a walk stands there. -/
theorem get?_of_walk {follow : Bool} {links : Nat} {l k : Location} {path : List Step} {node : Node}
    (h : walk caller fs follow links l path = .ok (.occupied k node)) : fs.get? k = some node := by
  rw [walk_eq_ok_iff] at h
  generalize hplace : Place.occupied k node = place at h
  induction h with
  | nil hnode | link _ _ hnode _ =>
      cases hplace
      exact hnode
  | vacant => cases hplace
  | here _ _ ih | up _ _ ih | directory _ _ _ ih | through _ _ _ _ _ ih | node _ _ _ _ _ ih =>
      exact ih hplace

/-- What a path leads to stands at the location that it leads to. -/
theorem get?_of_find {follow : Bool} {path : Path} {l : Location} {node : Node}
    (h : find caller fs follow path = .ok (l, node)) : fs.get? l = some node :=
  get?_of_walk (find_eq_ok_iff.1 h).2

/-- Looking at a node is finding it without following links at the end. -/
theorem lstat_eq_ok_iff {path : Path} {node : Node} :
    fs.lstat caller path = .ok node ↔ ∃ l, find caller fs false path = .ok (l, node) := by
  unfold FileSystem.lstat
  cases hfind : find caller fs false path with
  | error e => simp [Except.map]
  | ok r =>
      obtain ⟨l, found⟩ := r
      simp [Except.map]

/-- A path to a directory leads to a node that is one. -/
theorem exists_of_isDirectory {path : Path} (h : fs.isDirectory caller path = true) :
    ∃ l node, find caller fs true path = .ok (l, node) ∧ node.kind = .directory := by
  unfold FileSystem.isDirectory FileSystem.stat at h
  cases hfind : find caller fs true path with
  | error e => simp [hfind, Except.map] at h
  | ok r => exact ⟨r.1, r.2, rfl, by simpa [hfind, Except.map] using h⟩

/-- A path to a file leads to a node that is one. -/
theorem exists_of_isFile {path : Path} (h : fs.isFile caller path = true) :
    ∃ l node, find caller fs true path = .ok (l, node) ∧ node.kind = .file := by
  unfold FileSystem.isFile FileSystem.stat at h
  cases hfind : find caller fs true path with
  | error e => simp [hfind, Except.map] at h
  | ok r => exact ⟨r.1, r.2, rfl, by simpa [hfind, Except.map] using h⟩

/-- A path that leads to a directory is found to do so. -/
theorem isDirectory_of_find {path : Path} {l : Location} {node : Node} (hkind : node.kind = .directory)
    (h : find caller fs true path = .ok (l, node)) : fs.isDirectory caller path = true := by
  rw [FileSystem.isDirectory, FileSystem.stat, h]
  simp [Except.map, hkind]

/-- A path that leads to a file is found to do so. -/
theorem isFile_of_find {path : Path} {l : Location} {node : Node} (hkind : node.kind = .file)
    (h : find caller fs true path = .ok (l, node)) : fs.isFile caller path = true := by
  rw [FileSystem.isFile, FileSystem.stat, h]
  simp [Except.map, hkind]

/-- Looking at a node behind links succeeds just when the path leads anywhere. -/
theorem isOk_stat_iff {path : Path} :
    (fs.stat caller path).isOk = true ↔ ∃ r, find caller fs true path = .ok r := by
  rw [FileSystem.stat]
  cases find caller fs true path <;> simp [Except.map, Except.isOk, Except.toBool]

/-- Looking at a node succeeds just when the path leads anywhere, without following links at the end.
-/
theorem isOk_lstat_iff {path : Path} :
    (fs.lstat caller path).isOk = true ↔ ∃ r, find caller fs false path = .ok r := by
  rw [FileSystem.lstat]
  cases find caller fs false path <;> simp [Except.map, Except.isOk, Except.toBool]

/-- What is read from a file is its contents. -/
theorem eq_content_of_read {path : Path} {l : Location} {mode : Mode} {time : Int}
    {content bytes : Bytes} (hfind : find caller fs true path = .ok (l, .file mode time content))
    (h : fs.read caller path = .ok bytes) : content = bytes := by
  have hstat : fs.stat caller path = .ok (.file mode time content) := by
    rw [FileSystem.stat, hfind]
    rfl
  unfold FileSystem.read FileSystem.openRead at h
  rw [hstat] at h
  obtain ⟨node, hopen, h⟩ := Run.of_bind_ok h
  obtain ⟨_, hnode, hopen⟩ := Run.of_bind_ok hopen
  obtain rfl := Except.ok.inj hnode
  split at hopen
  · obtain rfl := Except.ok.inj hopen
    exact Except.ok.inj h
  · exact absurd hopen Run.throw_ne_ok

/-- From a directory that a path leads to, the path joined with a name goes one step further. -/
theorem exists_walk_join {p : Path} {name : String} {l : Location} {node : Node}
    (hfind : find caller fs true p = .ok (l, node)) (hname : Path.IsName name) :
    ∃ links, ∀ follow, walk caller fs follow maxLinks (start caller (p.join ⟨name⟩).text)
      (steps (p.join ⟨name⟩).text) = walk caller fs follow links l [.name name] := by
  obtain ⟨htext, hwalk⟩ := find_eq_ok_iff.1 hfind
  have hp := (of_checkText_ok htext).1
  rw [start_join hp hname.no_slash, steps_join hp hname]
  rcases steps_eq p.text with hsteps | hsteps
  · rw [hsteps, ← List.append_nil (found _)] at hwalk
    obtain ⟨links, m, hend, hother⟩ := walk_append (Or.inr rfl) hwalk
    obtain ⟨rfl, _⟩ := of_walk_nil_ok hend
    exact ⟨links, fun follow => hother follow _ (by simp)⟩
  · rw [hsteps] at hwalk
    obtain ⟨links, m, hend, hother⟩ := walk_append (Or.inr rfl) hwalk
    rw [(of_walk_directory_ok hend).2] at hend
    obtain ⟨rfl, _⟩ := of_walk_nil_ok hend
    exact ⟨links, fun follow => hother follow _ (by simp)⟩

/-- What a path joined with the name of an entry leads to, if it leads anywhere. -/
theorem eq_of_find_join {p : Path} {name : String} {l : Location} {dir node : Node}
    {follow : Bool} {r : Location × Node} (hfind : find caller fs true p = .ok (l, dir))
    (hname : Path.IsName name) (hnode : fs.get? (l ++ [name]) = some node)
    (hkind : follow = false ∨ node.kind ≠ .link)
    (h : find caller fs follow (p.join ⟨name⟩) = .ok r) : r = (l ++ [name], node) := by
  obtain ⟨k, found⟩ := r
  obtain ⟨links, hwalk⟩ := exists_walk_join hfind hname
  have hend := (find_eq_ok_iff.1 h).2
  rw [hwalk follow] at hend
  rcases cases_walk_name hend with ⟨hnone, _⟩ | ⟨target, time, hlink, _, _, hplace⟩ |
    ⟨target, time, links', hlink, _, hfollow, _⟩ | ⟨other, hother, _, hend⟩
  · simp [hnone] at hnode
  · rw [hnode] at hlink
    obtain ⟨rfl, rfl⟩ : k = l ++ [name] ∧ found = .link target time := by simpa using hplace
    rw [Option.some.inj hlink]
  · rw [hnode] at hlink
    obtain rfl := Option.some.inj hlink
    rcases hkind with hkind | hkind
    · rcases hfollow with hfollow | hfollow
      · exact absurd rfl hfollow
      · simp [hkind] at hfollow
    · exact absurd rfl hkind
  · obtain ⟨rfl, hfound⟩ := of_walk_nil_ok hend
    rw [hnode] at hfound
    rw [Option.some.inj hfound]

/-! ## A file put where a walk ends -/

/-- A place after a file was put at a location. -/
def Place.put (k : Location) (new : Node) : Place → Place
  | .occupied l node => if l = k then .occupied k new else .occupied l node
  | .vacant directory name slash =>
    if directory ++ [name] = k then .occupied k new else .vacant directory name slash

/-- What may be entered is a directory. -/
theorem directory_of_enter {l : Location} (h : enter caller fs l = .ok ()) :
    ∃ node, fs.get? l = some node ∧ node.kind = .directory := by
  rw [enter] at h
  cases hnode : fs.get? l with
  | none => simp [hnode] at h
  | some node =>
      refine ⟨node, rfl, ?_⟩
      by_contra hkind
      simp [hnode, hkind] at h

/-- Setting a location where no directory or link stands does not keep a caller from entering a
directory. -/
theorem enter_set {l k : Location} {new : Node} (hfile : ∀ node, fs.get? k = some node → node.kind = .file)
    (h : enter caller fs l = .ok ()) : l ≠ k ∧ enter caller (fs.set k new) l = .ok () := by
  have hne : l ≠ k := by
    rintro rfl
    obtain ⟨node, hnode, hkind⟩ := directory_of_enter h
    simp [hfile node hnode] at hkind
  refine ⟨hne, ?_⟩
  rw [enter, FileSystem.get?_set, if_neg (Ne.symm hne)]
  exact h

/-- A file that is put where a file stands or could stand changes a walk only at its end. -/
theorem walk_set {follow : Bool} {links : Nat} {l k : Location} {path : List Step} {place : Place}
    {new : Node} (hfile : ∀ node, fs.get? k = some node → node.kind = .file)
    (hnew : new.kind = .file)
    (hslash : ∀ directory name, place = .vacant directory name true → directory ++ [name] ≠ k)
    (h : walk caller fs follow links l path = .ok place) :
    walk caller (fs.set k new) follow links l path = .ok (place.put k new) := by
  have hput : (fs.set k new).get? k = some new := by
    rw [FileSystem.get?_set, if_pos rfl]
  -- what is no file stands elsewhere, and is left
  have hother {m : Location} {node : Node} (hnode : fs.get? m = some node) (hkind : node.kind ≠ .file) :
      m ≠ k ∧ (fs.set k new).get? m = some node := by
    have hne : m ≠ k := by
      rintro rfl
      exact hkind (hfile node hnode)
    exact ⟨hne, by rw [FileSystem.get?_set, if_neg hne.symm, hnode]⟩
  rw [walk_eq_ok_iff] at h ⊢
  induction h with
  | @nil _ l node hnode =>
      by_cases hl : l = k
      · rw [hl, Place.put, if_pos rfl]
        exact .nil hput
      · rw [Place.put, if_neg hl]
        exact .nil (by rw [FileSystem.get?_set, if_neg (Ne.symm hl), hnode])
  | here henter _ ih => exact .here (enter_set hfile henter).2 (ih hslash)
  | up henter _ ih => exact .up (enter_set hfile henter).2 (ih hslash)
  | directory hnode hkind _ ih => exact .directory (hother hnode (by simp [hkind])).2 hkind (ih hslash)
  | @vacant _ l name rest slash henter hname hnone hrest =>
      by_cases hk : l ++ [name] = k
      · -- the file is put where the walk ended, and no slash may follow
        have hnoslash : slash = false := by
          cases slash with
          | false => rfl
          | true => exact absurd hk (hslash l name rfl)
        have hnil : rest = [] := by simpa [hnoslash] using hrest
        subst hk
        rw [Place.put, if_pos rfl, hnil]
        exact .node (enter_set hfile henter).2 hname hput (by simp [hnew]) (.nil hput)
      · rw [Place.put, if_neg hk]
        refine .vacant (enter_set hfile henter).2 hname ?_ hrest
        rw [FileSystem.get?_set, if_neg (Ne.symm hk), hnone]
  | link henter hname hnode hfollow =>
      obtain ⟨hne, hthere⟩ := hother hnode (by simp [Node.kind])
      rw [Place.put, if_neg hne]
      exact .link (enter_set hfile henter).2 hname hthere hfollow
  | through henter hname hnode hrest _ ih =>
      exact .through (enter_set hfile henter).2 hname (hother hnode (by simp [Node.kind])).2 hrest
        (ih hslash)
  | @node _ l name _ _ node henter hname hnode hkind _ ih =>
      obtain ⟨there, hthere, hlink⟩ : ∃ there, (fs.set k new).get? (l ++ [name]) = some there ∧
          there.kind ≠ .link := by
        by_cases hk : k = l ++ [name]
        · exact ⟨new, by rw [← hk, hput], by simp [hnew]⟩
        · exact ⟨node, by rw [FileSystem.get?_set, if_neg hk, hnode], hkind⟩
      exact .node (enter_set hfile henter).2 hname hthere hlink (ih hslash)

/-- A path that led to a file leads to what takes its place as a file. -/
theorem find_set {path : Path} {l : Location} {node new : Node} (hkind : node.kind = .file)
    (hnew : new.kind = .file) (h : find caller fs true path = .ok (l, node)) :
    find caller (fs.set l new) true path = .ok (l, new) := by
  obtain ⟨htext, hwalk⟩ := find_eq_ok_iff.1 h
  have hfile : ∀ other, fs.get? l = some other → other.kind = .file := by
    intro other hother
    rw [get?_of_find h] at hother
    exact Option.some.inj hother ▸ hkind
  have hset := walk_set hfile hnew (by simp) hwalk
  rw [Place.put, if_pos rfl] at hset
  exact find_eq_ok_iff.2 ⟨htext, hset⟩

/-- A path leads where it led when a file is put at another location, vacant or a file. -/
theorem find_set_of_ne {follow : Bool} {path : Path} {l k : Location} {node new : Node}
    (hfile : ∀ other, fs.get? k = some other → other.kind = .file) (hnew : new.kind = .file)
    (hne : l ≠ k) (h : find caller fs follow path = .ok (l, node)) :
    find caller (fs.set k new) follow path = .ok (l, node) := by
  obtain ⟨htext, hwalk⟩ := find_eq_ok_iff.1 h
  have hset := walk_set hfile hnew (by simp) hwalk
  rw [Place.put, if_neg hne] at hset
  exact find_eq_ok_iff.2 ⟨htext, hset⟩

/-! ## Vacant names -/

/-- Every name among the steps of a path names an entry. -/
theorem isName_of_mem_steps {path : String} {name : String} (h : Step.name name ∈ steps path) :
    Path.IsName name := by
  have hfound : Step.name name ∈ found path.toList := by
    rcases steps_eq path with hsteps | hsteps
    · rwa [hsteps] at h
    · rw [hsteps] at h
      simpa using h
  obtain ⟨piece, hpiece, hstep⟩ := List.mem_filterMap.1 hfound
  rw [Step.ofSegment] at hstep
  split at hstep
  · simp at hstep
  · split at hstep
    · simp at hstep
    · split at hstep
      · simp at hstep
      · next hempty hcurrent hparent =>
          obtain rfl : String.ofList piece = name := by simpa using hstep
          refine ⟨?_, ?_, ?_, ?_⟩
          · simpa [← String.toList_inj] using hempty
          · simpa using Path.not_mem_of_mem_splitWhen hpiece
          · simpa [← String.toList_inj] using hcurrent
          · simpa [← String.toList_inj] using hparent

/-- A vacant name names an entry of a directory and has no node yet. -/
theorem of_walk_vacant {follow : Bool} {links : Nat} {l directory : Location} {path : List Step}
    {name : String} {slash : Bool} (hpath : ∀ name, Step.name name ∈ path → Path.IsName name)
    (h : walk caller fs follow links l path = .ok (.vacant directory name slash)) :
    Path.IsName name ∧ enter caller fs directory = .ok () ∧
      fs.get? (directory ++ [name]) = none := by
  rw [walk_eq_ok_iff] at h
  generalize hplace : Place.vacant directory name slash = place at h
  induction h with
  | nil | link => cases hplace
  | here _ _ ih | up _ _ ih | directory _ _ _ ih | node _ _ _ _ _ ih =>
      exact ih (fun name hname => hpath name (List.mem_cons_of_mem _ hname)) hplace
  | vacant henter _ hnone _ =>
      cases hplace
      exact ⟨hpath _ List.mem_cons_self, henter, hnone⟩
  | through _ _ _ _ _ ih =>
      refine ih (fun name hname => ?_) hplace
      rcases List.mem_append.1 hname with hname | hname
      · exact isName_of_mem_steps hname
      · exact hpath name (List.mem_cons_of_mem _ hname)

end Lookup

end RpmRelease
