import RpmRelease.Proofs.FileSystem.Adding
import RpmRelease.Proofs.Path.Ending

/-!
# Other spellings of a path

Slashes and dots that mean nothing add steps to a path that stay where they are.  They can be made in
every directory that a walk goes through, so that a path that ends in a name leads where its components
lead, however it is spelled, as long as it is not too long.  What a walk by names asks for is `Way`: the
names are short enough, and each of them is looked up in a directory that the caller may enter.

A directory that a path leads to is there, however its path is spelled; creating it changes nothing.
-/

set_option autoImplicit false

namespace RpmRelease

namespace Lookup

variable {caller : Caller} {fs : FileSystem} {links : Nat} {l k : Location} {node : Node}

/-! ## Putting in steps that stay -/

/-- Steps that stay can be made in a directory that may be entered. -/
theorem Walks.stays {follow : Bool} {pre path : List Step} {place : Place}
    (hpre : ∀ s ∈ pre, s.stays = true) (henter : enter caller fs l = .ok ())
    (h : Walks caller fs follow links l path place) :
    Walks caller fs follow links l (pre ++ path) place := by
  induction pre with
  | nil => exact h
  | cons s pre ih =>
      have hrest := ih fun other hother => hpre other (List.mem_cons_of_mem s hother)
      cases s with
      | here => exact .here henter hrest
      | directory =>
          obtain ⟨directory, hnode, hkind⟩ := directory_of_enter henter
          exact .directory hnode hkind hrest
      | up => exact absurd (hpre .up List.mem_cons_self) (by simp [Step.stays])
      | name text => exact absurd (hpre (.name text) List.mem_cons_self) (by simp [Step.stays])

/-- The first step of a path, some of whose steps that stay have been left out: before it come such
steps at most. -/
theorem exists_append_of_filter {front path rest : List Step} {s : Step}
    (h : front ++ path.filter (!·.stays) = s :: rest) : ∃ pre front' path',
      front ++ path = pre ++ s :: (front' ++ path') ∧ rest = front' ++ path'.filter (!·.stays) ∧
      (∀ t ∈ pre, t.stays = true) ∧ (pre = [] ∨ s.stays = false) ∧ path' <:+ path := by
  cases front with
  | cons first front =>
      obtain ⟨rfl, rfl⟩ := List.cons.inj h
      exact ⟨[], front, path, rfl, rfl, by simp, .inl rfl, List.suffix_rfl⟩
  | nil =>
      obtain ⟨pre, path', rfl, hpre, hs, rfl⟩ := List.filter_eq_cons_iff.1 h
      refine ⟨pre, [], path', rfl, rfl, by simpa using hpre, .inr (by simpa using hs), ?_⟩
      exact ⟨pre ++ [s], by simp⟩

/-- A path that ends in a name has that name as its last step. -/
theorem steps_of_endsIn {p : Path} {name : String} (hname : Path.IsName name) (h : p.EndsIn name) :
    ∃ front, steps p.text = front ++ [.name name] := by
  obtain ⟨pieces, hpieces⟩ := List.getLast?_eq_some_iff.1 h
  have hfound : found p.text.toList = pieces.filterMap Step.ofSegment ++ [.name name] := by
    have hlast : [name.toList].filterMap Step.ofSegment = [.name name] := by
      rw [← found_name hname, found, Path.splitWhen_of_no_slash hname.no_slash]
    rw [found, hpieces, List.filterMap_append, hlast]
  have hslash : p.text.toList.getLast? ≠ some '/' := by
    intro hslash
    obtain ⟨front, htext⟩ := List.getLast?_eq_some_iff.1 hslash
    rw [Path.EndsIn, htext, Text.splitWhen_append_cons _ _ (by simp), Text.splitWhen,
      List.getLast?_concat] at h
    exact hname.chars_ne_nil (Option.some.inj h).symm
  rw [found] at hfound
  refine ⟨pieces.filterMap Step.ofSegment, ?_⟩
  simp only [steps]
  rw [if_neg (by simp [hslash]), hfound]

/-- A walk to a node leads there with steps that stay put in, too, unless they are the last ones. -/
theorem walks_of_filter {front path : List Step}
    (hlast : ∀ s, path.getLast? = some s → s.stays = false)
    (h : Walks caller fs true links l (front ++ path.filter (!·.stays)) (.occupied k node)) :
    Walks caller fs true links l (front ++ path) (.occupied k node) := by
  generalize hsteps : front ++ path.filter (!·.stays) = all at h
  generalize hplace : Place.occupied k node = place at h
  -- the end of a path is that of each of its suffixes, so the last step never stays
  have hrest {path' : List Step} (hsuffix : path' <:+ path) :
      ∀ s, path'.getLast? = some s → s.stays = false := by
    intro s hs
    obtain ⟨pre, rfl⟩ := hsuffix
    refine hlast s ?_
    rw [List.getLast?_append, hs]
    rfl
  -- on the walk; in front of each step that is taken there may be steps that stay
  induction h generalizing front path with
  | @nil _ l _ hnode =>
      obtain ⟨rfl, hstays⟩ := List.append_eq_nil_iff.1 hsteps
      cases hplace
      obtain rfl : path = [] := by
        by_contra hne
        have hmem : (path.getLast hne).stays = true := by
          simpa using List.filter_eq_nil_iff.1 hstays _ (List.getLast_mem hne)
        rw [hlast _ (List.getLast?_eq_getLast_of_ne_nil hne)] at hmem
        exact Bool.false_ne_true hmem
      exact .nil hnode
  | here henter _ ih =>
      obtain ⟨pre, front', path', heq, rfl, -, hpre, hsuffix⟩ := exists_append_of_filter hsteps
      obtain rfl := hpre.resolve_right (by simp [Step.stays])
      rw [heq]
      exact .here henter (ih (hrest hsuffix) rfl hplace fun h => hrest (h.trans hsuffix))
  | up henter _ ih =>
      obtain ⟨pre, front', path', heq, rfl, hstays, -, hsuffix⟩ := exists_append_of_filter hsteps
      rw [heq]
      exact (Walks.up henter (ih (hrest hsuffix) rfl hplace fun h => hrest (h.trans hsuffix))).stays
        hstays henter
  | directory hnode hkind _ ih =>
      obtain ⟨pre, front', path', heq, rfl, -, hpre, hsuffix⟩ := exists_append_of_filter hsteps
      obtain rfl := hpre.resolve_right (by simp [Step.stays])
      rw [heq]
      exact .directory hnode hkind (ih (hrest hsuffix) rfl hplace fun h => hrest (h.trans hsuffix))
  | vacant => cases hplace
  | link _ _ _ hfalse => exact absurd hfalse (by simp)
  | @through _ _ name target _ _ _ henter hname hnode _ _ ih =>
      obtain ⟨pre, front', path', heq, rfl, hstays, -, hsuffix⟩ := exists_append_of_filter hsteps
      rw [heq]
      have hbehind := ih (hrest hsuffix) (List.append_assoc (steps target) front' _) hplace
        fun h => hrest (h.trans hsuffix)
      rw [List.append_assoc] at hbehind
      exact (Walks.through henter hname hnode (.inr rfl) hbehind).stays hstays henter
  | node henter hname hnode hkind _ ih =>
      obtain ⟨pre, front', path', heq, rfl, hstays, -, hsuffix⟩ := exists_append_of_filter hsteps
      rw [heq]
      exact (Walks.node henter hname hnode hkind
        (ih (hrest hsuffix) rfl hplace fun h => hrest (h.trans hsuffix))).stays hstays henter

/-! ## Where a path leads by its components -/

/-- Names may be followed from a location: each of them is short enough, and is looked up in a directory
that the caller may enter. -/
def Way (caller : Caller) (fs : FileSystem) (l : Location) (names : List String) : Prop :=
  ∀ front name, front ++ [name] <+: names →
    enter caller fs (l ++ front) = .ok () ∧ ¬ maxName < name.utf8ByteSize

section Way

variable {names more : List String} {name : String}

/-- No names can always be followed. -/
theorem way_nil : Way caller fs l [] := by
  intro front name hfront
  simpa using hfront.length_le

/-- A beginning of names that may be followed may be followed. -/
theorem Way.front (h : Way caller fs l names) (hmore : more <+: names) : Way caller fs l more :=
  fun front name hfront => h front name (hfront.trans hmore)

/-- Behind a beginning of names the others may be followed. -/
theorem Way.behind (h : Way caller fs l (names ++ more)) : Way caller fs (l ++ names) more := by
  intro front name hfront
  rw [List.append_assoc]
  refine h (names ++ front) name ?_
  rw [List.append_assoc]
  exact (List.prefix_append_right_inj names).2 hfront

/-- Names may be followed when the first one may and the others may from there. -/
theorem Way.cons (henter : enter caller fs l = .ok ()) (hname : ¬ maxName < name.utf8ByteSize)
    (h : Way caller fs (l ++ [name]) names) : Way caller fs l (name :: names) := by
  intro front last hfront
  cases front with
  | nil =>
      obtain ⟨rfl, -⟩ := List.cons_prefix_cons.1 hfront
      exact ⟨by rwa [List.append_nil], hname⟩
  | cons first front =>
      obtain ⟨rfl, hrest⟩ := List.cons_prefix_cons.1 hfront
      simpa using h front last hrest

/-- Names lead through directories that may be entered to the node under them. -/
theorem Way.walks (hway : Way caller fs l names) (hnode : fs.get? (l ++ names) = some node)
    (hkind : node.kind ≠ .link) :
    Walks caller fs true links l (names.map .name) (.occupied (l ++ names) node) := by
  induction names generalizing l with
  | nil =>
      rw [List.append_nil] at hnode ⊢
      exact .nil hnode
  | cons name names ih =>
      have happend : l ++ name :: names = l ++ [name] ++ names := by simp
      obtain ⟨henter, hsize⟩ := hway [] name (by simp)
      rw [List.append_nil] at henter
      have hbehind : Way caller fs (l ++ [name]) names := Way.behind hway
      rw [happend] at hnode ⊢
      have hrest := ih hbehind hnode
      cases names with
      | nil => exact .node henter hsize (by rwa [List.append_nil] at hnode) hkind hrest
      | cons next names =>
          obtain ⟨directory, hdirectory, hdirectoryKind⟩ :=
            directory_of_enter (hbehind [] next (by simp)).1
          rw [List.append_nil] at hdirectory
          exact .node henter hsize hdirectory (by simp [hdirectoryKind]) hrest

/-- Where a walk by names leads anywhere, without links on its way, they may be followed. -/
theorem way_of_walk_names {place : Place} (hlinks : NoLinks fs l names)
    (h : walk caller fs true links l (names.map .name) = .ok place) : Way caller fs l names := by
  induction names generalizing l links with
  | nil => exact way_nil
  | cons name names ih =>
      obtain ⟨henter, hname⟩ := of_walk_name_ok h
      refine .cons henter hname ?_
      by_cases hne : names = []
      · rw [hne]
        exact way_nil
      rcases cases_walk_name h with ⟨-, slash, -, hrest⟩ | ⟨target, time, hlink, hrest, -⟩ |
        ⟨target, time, links', hlink, -⟩ | ⟨next, hnext, -, hwalk⟩
      · cases names with
        | nil => exact absurd rfl hne
        | cons next names => cases slash <;> simp at hrest
      · exact absurd (List.map_eq_nil_iff.1 hrest) hne
      · refine absurd hlink (hlinks [name] ?_ (by simp) (by simpa using Ne.symm hne) target time)
        exact List.cons_prefix_cons.2 ⟨rfl, List.nil_prefix⟩
      · refine ih (fun front hfront hfrontNe hproper target time => ?_) hwalk
        rw [List.append_assoc]
        exact hlinks (name :: front) (List.cons_prefix_cons.2 ⟨rfl, hfront⟩) (by simp)
          (by simpa using hproper) target time

variable {base p : Path} {directory : Node}

/-- Where a path behind a directory leads anywhere, its names may be followed from the directory. -/
theorem way_of_locate {place : Place} (hbehind : Behind base names p)
    (hbase : find caller fs true base = .ok (l, directory)) (hlinks : NoLinks fs l names)
    (h : locate caller fs true p = .ok place) : Way caller fs l names := by
  obtain ⟨-, -, hwalk⟩ := Run.of_bind_ok h
  have hdrops := drops_filter (steps p.text)
  rw [filter_steps] at hdrops
  obtain ⟨place', hwalk, -⟩ := walk_drops hdrops hwalk
  rw [hbehind.course_eq, start_eq hbehind.isAbsolute] at hwalk
  by_cases hne : names = []
  · rw [hne]
    exact way_nil
  obtain ⟨links, hbehindBase⟩ := exists_walk_behind (walk_course hbase)
  rw [hbehindBase true _ (by simpa using hne)] at hwalk
  exact way_of_walk_names hlinks hwalk

/-- A path behind a directory that ends in a name leads to the node under its names, however it is
spelled. -/
theorem find_of_way {last : String} (hbehind : Behind base names p) (hname : Path.IsName last)
    (hends : p.EndsIn last) (htext : checkText p.text = .ok ())
    (hbase : find caller fs true base = .ok (l, directory)) (hway : Way caller fs l names)
    (hnode : fs.get? (l ++ names) = some node) (hkind : node.kind ≠ .link) :
    find caller fs true p = .ok (l ++ names, node) := by
  have hcourse : walk caller fs true maxLinks (start caller p.text) (course p) =
      .ok (.occupied (l ++ names) node) := by
    rw [hbehind.course_eq, start_eq hbehind.isAbsolute]
    by_cases hne : names = []
    · subst hne
      rw [List.append_nil, get?_of_find hbase] at hnode
      obtain rfl := Option.some.inj hnode
      simpa using walk_course hbase
    · obtain ⟨links, hbehindBase⟩ := exists_walk_behind (walk_course hbase)
      rw [hbehindBase true _ (by simpa using hne)]
      exact (hway.walks hnode hkind).walk_eq_ok
  obtain ⟨front, hsteps⟩ := steps_of_endsIn hname hends
  have hwalks : Walks caller fs true maxLinks (start caller p.text)
      ([] ++ (steps p.text).filter (!·.stays)) (.occupied (l ++ names) node) := by
    rw [List.nil_append, filter_steps]
    exact walks_of_walk hcourse
  have hlast : ∀ s, (steps p.text).getLast? = some s → s.stays = false := by
    intro s hs
    rw [hsteps, List.getLast?_concat] at hs
    rw [← Option.some.inj hs]
    rfl
  exact find_eq_ok_iff.2 ⟨htext, (walks_of_filter hlast hwalks).walk_eq_ok⟩

end Way

/-! ## Directories that are there -/

/-- What a walk to a directory goes on from is a directory. -/
theorem Walks.directory_at {path : List Step} {place : Place} (hkind : node.kind = .directory)
    (hplace : place = .occupied k node) (h : Walks caller fs true links l path place) :
    ∃ directory, fs.get? l = some directory ∧ directory.kind = .directory := by
  cases h with
  | nil hnode =>
      obtain ⟨rfl, rfl⟩ := Place.occupied.inj hplace
      exact ⟨_, hnode, hkind⟩
  | here henter _ => exact directory_of_enter henter
  | up henter _ => exact directory_of_enter henter
  | directory hnode hdirectory _ => exact ⟨_, hnode, hdirectory⟩
  | vacant => cases hplace
  | link henter _ _ _ => exact directory_of_enter henter
  | through henter _ _ _ _ => exact directory_of_enter henter
  | node henter _ _ _ _ => exact directory_of_enter henter

/-- The first steps of a walk to a directory lead to a directory, from where the others go on. -/
theorem exists_walk_front {front rest : List Step} (hkind : node.kind = .directory)
    (h : walk caller fs true links l (front ++ rest) = .ok (.occupied k node)) :
    ∃ links' m directory, walk caller fs true links l front = .ok (.occupied m directory) ∧
      directory.kind = .directory ∧
      walk caller fs true links' m rest = .ok (.occupied k node) := by
  obtain ⟨links', m, hrest, hother⟩ := walk_append (.inr rfl) h
  obtain ⟨directory, hdirectory, hdirectoryKind⟩ := (walks_of_walk hrest).directory_at hkind rfl
  have hslash : walk caller fs true links l (front ++ [.directory]) =
      .ok (.occupied m directory) := by
    rw [hother true [.directory] (by simp)]
    exact (Walks.directory hdirectory hdirectoryKind (.nil hdirectory)).walk_eq_ok
  exact ⟨links', m, directory, walk_of_walk_stay rfl hslash, hdirectoryKind, hrest⟩

/-- The steps before the last one, and what comes then. -/
theorem exists_of_cutLast {path front : List Step} {ending : Ending}
    (h : cutLast path = (front, ending)) : ∃ rest, path = front ++ rest ∧
      ∀ text slash, ending = .name text slash → ∃ more, rest = .name text :: more := by
  cases ending with
  | name text slash =>
      refine ⟨_, eq_of_cutLast_name h, fun other slash' heq => ?_⟩
      obtain ⟨rfl, rfl⟩ := Ending.name.inj heq
      exact ⟨_, rfl⟩
  | directory step =>
      refine (?_ : ∃ rest, path = front ++ rest).imp fun rest hrest =>
        ⟨hrest, fun text slash heq => nomatch heq⟩
      rw [cutLast] at h
      split at h
      · simp at h
      · next step' front' hreverse =>
          obtain ⟨rfl, -⟩ := Prod.mk.inj h
          exact ⟨_, by rw [← List.reverse_reverse path, hreverse]; simp; rfl⟩
      · simp at h
      · next step' front' _ _ hreverse =>
          obtain ⟨rfl, -⟩ := Prod.mk.inj h
          exact ⟨_, by rw [← List.reverse_reverse path, hreverse]; simp; rfl⟩
      · obtain ⟨rfl, -⟩ := Prod.mk.inj h
        exact ⟨path, rfl⟩

/-- A path to a directory leads there with a slash at its end, too. -/
theorem find_slash {p : Path} (hkind : node.kind = .directory)
    (htext : checkText (p.join ⟨""⟩).text = .ok ()) (h : find caller fs true p = .ok (l, node)) :
    find caller fs true (p.join ⟨""⟩) = .ok (l, node) := by
  obtain ⟨hpText, hwalk⟩ := find_eq_ok_iff.1 h
  have hp := (of_checkText_ok hpText).1
  by_cases hlast : p.text.toList.getLast? = some '/'
  · have hself : p.join ⟨""⟩ = p := by
      simp [Path.join, Path.isAbsolute, hlast]
    rwa [hself]
  · have hsteps : steps p.text = found p.text.toList := by
      rw [steps, ← found, if_neg (by simp [hlast])]
    have hfound : found (p.join ⟨""⟩).text.toList = found p.text.toList :=
      (found_join hp (by decide)).trans (List.append_nil _)
    have hbehind : Behind p [] (p.join ⟨""⟩) := (behind_self p).join_below hp hp (Path.below?_self hp)
    refine find_eq_ok_iff.2 ⟨htext, ?_⟩
    rw [start_eq hbehind.isAbsolute]
    rw [hsteps] at hwalk
    rcases steps_eq (p.join ⟨""⟩).text with heq | heq
    · rwa [heq, hfound]
    · obtain ⟨links, hmore⟩ := exists_walk_behind hwalk
      rw [heq, hfound, hmore true _ (by simp)]
      have hnode := get?_of_walk hwalk
      exact (Walks.directory hnode hkind (.nil hnode)).walk_eq_ok

/-- What keeps a caller from entering a directory that is there is a missing permission. -/
theorem eq_accessDenied_of_enter {directory : Node} {e : FileError} (hnode : fs.get? l = some directory)
    (hkind : directory.kind = .directory) (h : enter caller fs l = .error e) :
    e = .system .accessDenied := by
  simp only [enter, hnode, hkind, bne_self_eq_false, Bool.false_eq_true, if_false] at h
  split at h
  · simp at h
  · exact (Except.error.inj h).symm

end Lookup

/-- A directory that a path leads to is not created again, but it is not missing either. -/
theorem FileSystem.exists_makeDirectory_error {caller : Caller} {fs : FileSystem} {p : Path}
    {l : Location} {node : Node} (hfind : Lookup.find caller fs true p = .ok (l, node))
    (hkind : node.kind = .directory) :
    ∃ e, fs.makeDirectory caller p = .error e ∧ e.kind ≠ .notFound := by
  obtain ⟨htext, hwalk⟩ := Lookup.find_eq_ok_iff.1 hfind
  rcases hcut : Lookup.cutLast (Lookup.steps p.text) with ⟨front, ending⟩
  obtain ⟨rest, hsteps, hrest⟩ := Lookup.exists_of_cutLast hcut
  rw [hsteps] at hwalk
  obtain ⟨links, m, directory, hfront, hdirectory, hlast⟩ := Lookup.exists_walk_front hkind hwalk
  rw [makeDirectory, Lookup.locateEntry, htext, hcut]
  simp only [bind, Except.bind, hfront]
  cases henter : Lookup.enter caller fs m with
  | error e =>
      have hdenied := Lookup.eq_accessDenied_of_enter (Lookup.get?_of_walk hfront) hdirectory henter
      exact ⟨e, rfl, by rw [hdenied]; decide⟩
  | ok _ =>
      refine ⟨.system .entryExists, ?_, by decide⟩
      cases ending with
      | directory step => rfl
      | name text slash =>
          obtain ⟨more, rfl⟩ := hrest text slash rfl
          obtain ⟨-, hname⟩ := Lookup.of_walk_name_ok hlast
          have hthere : (fs.get? (m ++ [text])).isSome = true := by
            rcases Lookup.cases_walk_name hlast with ⟨-, _, hvacant, -⟩ | ⟨_, _, hsome, -⟩ |
              ⟨_, _, _, hsome, -⟩ | ⟨_, hsome, -⟩
            · cases hvacant
            all_goals simp [hsome]
          simp [hname, hthere, pure, Except.pure, throw, throwThe, MonadExceptOf.throw]

/-- Creating a directory that a path leads to changes nothing. -/
theorem Storage.exec_createDirectories_of_find {caller : Caller} {fs : FileSystem} {p : Path}
    {l : Location} {node : Node} (hfind : Lookup.find caller fs true p = .ok (l, node))
    (hkind : node.kind = .directory) : (createDirectories p).exec caller fs = (.ok (), fs) := by
  obtain ⟨e, hmake, hfound⟩ := FileSystem.exists_makeDirectory_error hfind hkind
  have htext := (Lookup.of_checkText_ok (Lookup.find_eq_ok_iff.1 hfind).1).1
  have hdirectory : fs.isDirectory caller p = true := by
    rw [FileSystem.isDirectory, FileSystem.stat, hfind]
    simpa [Except.map] using hkind
  obtain ⟨rest, hancestors⟩ := Path.exists_ancestors p
  rw [createDirectories, hancestors, createAncestors, if_neg (by simpa using htext), exec_bind, attempt,
    exec_ofExec, exec_change_error hmake]
  simp only [beq_iff_eq, if_neg hfound]
  rw [exec_bind, isDirectory, query, exec_ofExec, hdirectory]
  rfl

end RpmRelease
