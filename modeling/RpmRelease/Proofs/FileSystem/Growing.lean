import RpmRelease.Proofs.FileSystem.Makes
import RpmRelease.Proofs.FileSystem.Putting
import RpmRelease.Proofs.Path.Above

/-!
# What programs leave as it is

Creating directories adds nodes to a file system and changes none that is there, also when it fails on
the way.  Writing a file changes one node at most.
-/

set_option autoImplicit false

namespace RpmRelease

variable {ε : Type} {caller : Caller} {fs fs' : FileSystem}

namespace FileSystem

/-- Setting a vacant location only adds. -/
theorem within_set {l : Location} (h : fs.get? l = none) (new : Node) : fs.Within (fs.set l new) := by
  intro k node hnode
  rw [get?_set, if_neg, hnode]
  rintro rfl
  simp [h] at hnode

/-- Making a directory only adds. -/
theorem within_of_makeDirectory {path : Path} (h : fs.makeDirectory caller path = .ok fs') :
    fs.Within fs' := by
  obtain ⟨l, name, slash, -, hvacant, -, rfl⟩ := of_makeDirectory_ok h
  exact within_set hvacant _

/-- Changes that only add do so one after the other. -/
theorem within_of_changes (h : Relation.ReflTransGen FileSystem.Within fs fs') : fs.Within fs' := by
  induction h with
  | refl => exact .refl fs
  | tail _ hlast ih => exact ih.trans hlast

/-! ## What is no directory -/

/-- What is no directory below a location, each with the names that lead to it from there. -/
def leaves (fs : FileSystem) (l : Location) : List (Location × Node) :=
  (fs.below l).filter (·.2.kind != .directory)

/-- The leaves below a location are the nodes there that are no directories, with the names that lead
to them. -/
theorem mem_leaves {l rest : Location} {node : Node} : (rest, node) ∈ fs.leaves l ↔
    rest ≠ [] ∧ fs.get? (l ++ rest) = some node ∧ node.kind ≠ .directory := by
  rw [leaves, List.mem_filter, mem_below, and_assoc]
  simp

/-- No leaf is listed twice. -/
theorem nodup_leaves (l : Location) : (fs.leaves l).Nodup :=
  ((pairwise_below l).imp fun hne heq => hne (congrArg Prod.fst heq)).filter _

/-- A directory that is put where nothing stands is one leaf less than anything else. -/
theorem length_leaves_set_directory {k : Location} {mode : Mode} {time : Int} (l : Location)
    (h : fs.get? k = none) :
    ((fs.set k (.directory mode time)).leaves l).length = (fs.leaves l).length := by
  refine (List.perm_ext_iff_of_nodup (nodup_leaves l) (nodup_leaves l)).2 ?_ |>.length_eq
  rintro ⟨rest, node⟩
  rw [mem_leaves, mem_leaves, get?_set]
  by_cases hk : k = l ++ rest
  · rw [if_pos hk, ← hk, h]
    refine ⟨fun hmem => absurd ?_ hmem.2.2, fun hmem => absurd hmem.2.1 (by simp)⟩
    rw [← Option.some.inj hmem.2.1]
    rfl
  · rw [if_neg hk]

/-- A new node that is no directory makes one leaf more. -/
theorem length_leaves_set {l rest : Location} {new : Node} (hne : rest ≠ [])
    (h : fs.get? (l ++ rest) = none) (hkind : new.kind ≠ .directory) :
    ((fs.set (l ++ rest) new).leaves l).length = (fs.leaves l).length + 1 := by
  have hnotMem : (rest, new) ∉ fs.leaves l := fun hmem => by
    simp [(mem_leaves.1 hmem).2.1] at h
  refine (List.perm_ext_iff_of_nodup (nodup_leaves l)
    (List.nodup_cons.2 ⟨hnotMem, nodup_leaves l⟩)).2 ?_ |>.length_eq
  rintro ⟨other, node⟩
  rw [List.mem_cons, mem_leaves, mem_leaves, get?_set]
  by_cases hk : rest = other
  · subst hk
    rw [if_pos rfl, h]
    constructor
    · intro hmem
      exact .inl (by rw [← Option.some.inj hmem.2.1])
    · rintro (heq | hmem)
      · obtain rfl := (Prod.mk.inj heq).2
        exact ⟨hne, rfl, hkind⟩
      · exact absurd hmem.2.1 (by simp)
  · rw [if_neg fun heq => hk (List.append_cancel_left heq)]
    refine ⟨.inr, fun hmem => hmem.resolve_left fun heq => hk ?_⟩
    exact (Prod.mk.inj heq).1.symm

end FileSystem

namespace Lookup

/-- The path of a directory that has been created leads to it. -/
theorem find_of_makeDirectory {path : Path} (h : fs.makeDirectory caller path = .ok fs') :
    ∃ l, find caller fs' true path = .ok (l, .directory Mode.directory caller.now) := by
  obtain ⟨l, name, slash, hentry, hvacant, -, rfl⟩ := FileSystem.of_makeDirectory_ok h
  have hwithin := FileSystem.within_of_makeDirectory h
  obtain ⟨htext, front, node, hcut, hwalk, henter, hname⟩ := locateEntry_eq_name_iff.1 hentry
  -- the way to the entry is the same as before, and then there is the new directory
  obtain ⟨links, hbehind⟩ := exists_walk_behind (walk_within hwithin hwalk)
  have hthere : (fs.set (l ++ [name]) (.directory Mode.directory caller.now)).get? (l ++ [name]) =
      some (.directory Mode.directory caller.now) := by
    rw [FileSystem.get?_set, if_pos rfl]
  have hend : Walks caller (fs.set (l ++ [name]) (.directory Mode.directory caller.now)) true
      links l (.name name :: if slash then [.directory] else [])
      (.occupied (l ++ [name]) (.directory Mode.directory caller.now)) := by
    refine .node (enter_within hwithin henter) hname hthere (by simp [Node.kind]) ?_
    cases slash with
    | true => exact .directory hthere rfl (.nil hthere)
    | false => exact .nil hthere
  refine ⟨l ++ [name], find_eq_ok_iff.2 ⟨htext, ?_⟩⟩
  rw [eq_of_cutLast_name hcut, hbehind true _ (by simp)]
  exact hend.walk_eq_ok

end Lookup

namespace Storage

open Relation (ReflTransGen)

variable {step : FileSystem → FileSystem → Prop}

/-- A failure to create a directory counts unless the directory is there; asking changes nothing. -/
theorem makes_directoryOr (path : Path) (e : FileError) :
    Makes step caller fs (do if !(← isDirectory path) then throw e : Storage FileError Unit)
      fun _ _ => True := by
  refine Makes.query.bind fun there fs' _ _ => ?_
  split
  · exact .throw
  · exact .pure trivial

/-- Ensuring that there is a directory makes no other change than making it. -/
theorem makes_ensureDirectory {path : Path}
    (h : ∀ fs', fs.makeDirectory caller path = .ok fs' → step fs fs') :
    Makes step caller fs (ensureDirectory path) fun _ _ => True := by
  unfold ensureDirectory
  refine (Makes.change fun fs' hmake => h fs' (of_exec_change_ok hmake)).attempt.bind ?_
  intro outcome fs' _ _
  cases outcome with
  | ok => exact .pure trivial
  | error e => exact makes_directoryOr path e

/-- Creating directories makes the changes that each of them makes where it is created. -/
theorem makes_createAncestors {paths : List Path}
    (h : ∀ path ∈ paths, ∀ fs₁ fs₂, ReflTransGen step fs fs₁ →
      fs₁.makeDirectory caller path = .ok fs₂ → step fs₁ fs₂) :
    Makes step caller fs (createAncestors paths) fun _ _ => True := by
  induction paths generalizing fs with
  | nil => exact .pure trivial
  | cons path above ih =>
      have hpath := h path List.mem_cons_self
      unfold createAncestors
      split
      · exact .pure trivial
      refine (Makes.change fun fs' hmake => hpath fs fs' .refl (of_exec_change_ok hmake)).attempt.bind
        fun outcome fs₁ h₁ _ => ?_
      cases outcome with
      | ok => exact .pure trivial
      | error e =>
          dsimp only
          split
          · split
            · exact Makes.bind .throw fun _ _ _ h => absurd h id
            -- the directory above is created first, and then there is a second try
            · refine (ih fun other hother fs₂ fs₃ h₂ => ?_).bind fun _ fs₂ h₂ _ => ?_
              · exact h other (List.mem_cons_of_mem path hother) fs₂ fs₃ (h₁.trans h₂)
              · exact makes_ensureDirectory fun fs₃ => hpath fs₂ fs₃ (h₁.trans h₂)
          · exact makes_directoryOr path e

/-- The path of a directory that is created with those above it leads to a directory. -/
theorem find_of_createDirectories {path : Path} (hpath : path.text ≠ "")
    (h : (createDirectories path).exec caller fs = (.ok (), fs')) :
    ∃ l node, Lookup.find caller fs' true path = .ok (l, node) ∧ node.kind = .directory := by
  -- the directory was made
  have hattempt {fs₁ fs₂ : FileSystem} {outcome : Except FileError Unit}
      (hrun : (attempt (change fun caller fs => fs.makeDirectory caller path) :
        Storage FileError (Except FileError Unit)).exec caller fs₁ = (.ok outcome, fs₂))
      (hok : outcome = .ok ()) :
      ∃ l node, Lookup.find caller fs₂ true path = .ok (l, node) ∧ node.kind = .directory := by
    have hmake := of_exec_attempt_ok hrun
    rw [hok] at hmake
    obtain ⟨l, hfind⟩ := Lookup.find_of_makeDirectory (of_exec_change_ok hmake)
    exact ⟨l, _, hfind, rfl⟩
  -- or it was there already
  have hcheck {fs₁ fs₂ : FileSystem} {e : FileError}
      (hrun : (do if !(← isDirectory path) then throw e : Storage FileError Unit).exec caller fs₁ =
        (.ok (), fs₂)) :
      ∃ l node, Lookup.find caller fs₂ true path = .ok (l, node) ∧ node.kind = .directory := by
    obtain ⟨there, _, hquery, hcheck⟩ := of_exec_bind_ok hrun
    obtain ⟨hthere, rfl⟩ := of_exec_query_ok hquery
    obtain rfl := Except.ok.inj hthere
    split at hcheck
    · exact absurd hcheck Run.run_throw_ne_ok
    · next hdirectory =>
        obtain rfl := (Run.ok_inj hcheck).2
        exact Lookup.exists_of_isDirectory (by simpa using hdirectory)
  obtain ⟨above, habove⟩ := Path.exists_ancestors path
  rw [createDirectories, habove, createAncestors, if_neg (by simpa using hpath)] at h
  obtain ⟨outcome, fs₁, hmake, h⟩ := of_exec_bind_ok h
  cases outcome with
  | ok =>
      obtain rfl := (Run.ok_inj h).2
      exact hattempt hmake rfl
  | error e =>
      dsimp only at h
      split at h
      · obtain ⟨-, h⟩ := of_exec_check_ok h
        obtain ⟨_, fs₂, -, h⟩ := of_exec_bind_ok h
        obtain ⟨outcome, fs₃, hmake, h⟩ := of_exec_bind_ok h
        cases outcome with
        | ok =>
            obtain rfl := (Run.ok_inj h).2
            exact hattempt hmake rfl
        | error e => exact hcheck h
      · exact hcheck h

/-- Whether it succeeds or fails, creating directories changes nothing that is there. -/
theorem within_createDirectories (caller : Caller) (fs : FileSystem) (path : Path) :
    fs.Within ((createDirectories path).exec caller fs).2 := by
  have hmakes : Makes FileSystem.Within caller fs (createDirectories path) fun _ _ => True :=
    makes_createAncestors fun _ _ _ _ _ hmake => FileSystem.within_of_makeDirectory hmake
  exact FileSystem.within_of_changes hmakes.changes

/-- A path leads to a file that has been written, and whatever stands elsewhere is as before. -/
structure Wrote (caller : Caller) (before after : FileSystem) (path : Path) (content : Bytes)
    (l : Location) : Prop where
  find : ∃ mode, Lookup.find caller after true path = .ok (l, .file mode caller.now content)
  elsewhere : ∀ k, k ≠ l → after.get? k = before.get? k

/-- Filling a file that was opened writes it. -/
theorem wrote_of_opened {before opened : FileSystem} {path : Path} {l : Location} {mode : Mode}
    (h : FileSystem.Opened caller before opened path l mode) (content : Bytes) :
    Wrote caller before (opened.fill caller l content) path content l := by
  refine ⟨FileSystem.find_fill h content, fun k hk => ?_⟩
  rw [FileSystem.fill, Lookup.get?_of_find h.find, h.eq_set]
  simp [FileSystem.get?_set, Ne.symm hk]

/-- Writing a file either fails and changes nothing, or writes it. -/
theorem wrote_or_error (caller : Caller) (fs : FileSystem) (path : Path) (content : Bytes) :
    (∃ e, (writeFile path content).exec caller fs = (.error e, fs)) ∨
      ∃ fs' l, (writeFile path content).exec caller fs = (.ok (), fs') ∧
        Wrote caller fs fs' path content l := by
  have hexec : (writeFile path content).exec caller fs =
      match fs.openWrite caller Mode.file path with
      | .ok (l, opened) => (.ok (), opened.fill caller l content)
      | .error e => (.error e, fs) := by
    rw [writeFile, change, exec_ofExec]
    cases fs.openWrite caller Mode.file path <;> rfl
  rw [hexec]
  cases hopen : fs.openWrite caller Mode.file path with
  | error e => exact .inl ⟨e, rfl⟩
  | ok place =>
      obtain ⟨l, opened⟩ := place
      obtain ⟨mode, hopened⟩ := FileSystem.opened_of_openWrite hopen
      exact .inr ⟨_, l, rfl, wrote_of_opened hopened content⟩

/-- Before a node is copied, the directory above its copy is created, if there is one. -/
theorem exists_opened_of_copy {source destination : Path} {node : Node}
    (h : (do
      match destination.parent? with
      | some above => createDirectories above
      | none => pure ()
      copyEntry source destination node : Storage FileError Unit).exec caller fs = (.ok (), fs')) :
    ∃ opened, (opened = fs ∨ ∃ above, destination.parent? = some above ∧
        (createDirectories above).exec caller fs = (.ok (), opened)) ∧
      (copyEntry source destination node).exec caller opened = (.ok (), fs') := by
  cases hparent : destination.parent? with
  | none =>
      rw [hparent] at h
      exact ⟨fs, .inl rfl, h⟩
  | some above =>
      rw [hparent] at h
      obtain ⟨_, opened, habove, hcopy⟩ := of_exec_bind_ok h
      exact ⟨opened, .inr ⟨above, rfl, habove⟩, hcopy⟩

end Storage

end RpmRelease
