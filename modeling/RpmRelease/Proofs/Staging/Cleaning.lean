import RpmRelease.Proofs.FileSystem.Adding
import RpmRelease.Proofs.Release
import RpmRelease.Staging

/-!
# Cleaning up, and creating the staging directory again

When the outputs of a release could be removed, nothing is left of them, and nothing else has changed:
what is left is what the file system held apart from the outputs.  So it does not matter which outputs
earlier runs have left, and cleaning again finds nothing.  The staging directory that is created next is
a new and empty one.
-/

set_option autoImplicit false

namespace RpmRelease.Staging

open FileSystem Storage

variable {caller : Caller} {fs fs' : FileSystem} {p : Path} {name : String} {l : Location}
  {top : Node}

/-! ## Removing what stands at a path -/

/-- Removing an entry that is not there changes nothing. -/
theorem exec_removePath_vacant (hfind : Lookup.find caller fs true p = .ok (l, top))
    (hname : Path.IsName name) (hentry : Lookup.checkEntry caller fs l p name = .ok ())
    (hnone : fs.get? (l ++ [name]) = none) :
    (removePath (p.join ⟨name⟩)).exec caller fs = (.ok false, fs) := by
  have hlstat : fs.lstat caller (p.join ⟨name⟩) = .error (.system .noEntry) := by
    rw [FileSystem.lstat, Lookup.find_join hfind hname, hentry, hnone]
    rfl
  have hattempt : (Storage.attempt (Storage.query fun caller fs => fs.lstat caller (p.join ⟨name⟩)) :
      Storage FileError _).exec caller fs = (.ok (.error (.system .noEntry)), fs) := by
    rw [Storage.attempt, exec_ofExec, Storage.query, exec_ofExec, hlstat]
  rw [removePath, exec_bind, hattempt]
  rfl

/-- Removing an entry tells whether something stood there, and cuts it. -/
theorem of_removePath_ok (wf : fs.WellFormed)
    (hfind : Lookup.find caller (fs.cut (l ++ [name])) true p = .ok (l, top))
    (hname : Path.IsName name) {there : Bool}
    (h : (removePath (p.join ⟨name⟩)).exec caller fs = (.ok there, fs')) :
    there = (fs.get? (l ++ [name])).isSome ∧ fs' = fs.cut (l ++ [name]) ∧
      Lookup.checkEntry caller fs l p name = .ok () := by
  have hbefore := Lookup.find_within (cut_within fs (l ++ [name])) hfind
  have hlstat : fs.lstat caller (p.join ⟨name⟩) = (Lookup.find caller fs false _).map (·.2) := rfl
  rw [Lookup.find_join hbefore hname] at hlstat
  obtain ⟨outcome, _, hattempt, h⟩ := of_exec_bind_ok h
  obtain ⟨hseen, rfl⟩ := Run.ok_inj hattempt
  -- an entry that may not be asked for is no missing one, so its error ends the program
  cases hentry : Lookup.checkEntry caller fs l p name with
  | error e =>
      have herror : outcome = .error e := by
        rw [← hseen]
        exact hlstat.trans (by rw [hentry]; rfl)
      have hkind := Lookup.kind_ne_notFound_of_checkEntry hbefore hname hentry
      rw [herror] at h
      simp only [beq_iff_eq, if_neg hkind] at h
      exact absurd h Run.run_throw_ne_ok
  | ok _ =>
      cases hnode : fs.get? (l ++ [name]) with
      | none =>
          have herror : outcome = .error (.system .noEntry) := by
            rw [← hseen]
            exact hlstat.trans (by rw [hentry, hnode]; rfl)
          rw [herror] at h
          obtain ⟨rfl, rfl⟩ := Run.ok_inj h
          exact ⟨rfl, (wf.cut_eq_self hnode).symm, rfl⟩
      | some node =>
          have hok : outcome = .ok node := by
            rw [← hseen]
            exact hlstat.trans (by rw [hentry, hnode]; rfl)
          rw [hok] at h
          by_cases hkind : node.kind = .directory
          · simp only [hkind, beq_self_eq_true, if_true] at h
            obtain ⟨_, middle, hremove, h⟩ := of_exec_bind_ok h
            obtain ⟨rfl, rfl⟩ := Run.ok_inj h
            exact ⟨rfl, ((leaves_removeAll wf hfind hname hnode).of_exec_ok hremove).2, rfl⟩
          · simp only [beq_iff_eq, if_neg hkind] at h
            obtain ⟨_, middle, hremove, h⟩ := of_exec_bind_ok h
            obtain ⟨rfl, rfl⟩ := Run.ok_inj h
            exact ⟨rfl, ((leaves_removeFile wf hbefore hname hnode).of_exec_ok hremove).2, rfl⟩

/-! ## Removing the outputs -/

/-- Removing an output, which is listed when it was there. -/
def removeOutput (path : Path) : Storage Failure (List Path) := do
  let there ← remarked ("Failed to remove " ++ path.text) (removePath path)
  return if there then [path] else []

/-- Cleaning removes the outputs one after the other and lists those that were there. -/
theorem clean_eq (r : Release) : clean r = collect removeOutput r.outputs := rfl

/-- The entries of the directory at a location that are there, as paths. -/
def standing (fs : FileSystem) (l : Location) (p : Path) (names : List String) : List Path :=
  (names.filter fun name => (fs.get? (l ++ [name])).isSome).map fun name => p.join ⟨name⟩

/-- Removing entries one after the other cuts them all, and lists those that were there. -/
theorem of_removeOutputs_ok (wf : fs.WellFormed) {names : List String} {removed : List Path}
    (hfind : Lookup.find caller (fs.cutAll l names) true p = .ok (l, top)) (hnodup : names.Nodup)
    (hnames : ∀ name ∈ names, Path.IsName name)
    (h : (collect removeOutput (names.map fun name => p.join ⟨name⟩)).exec caller fs =
      (.ok removed, fs')) :
    removed = standing fs l p names ∧ fs' = fs.cutAll l names ∧
      ∀ name ∈ names, Lookup.checkEntry caller fs l p name = .ok () := by
  -- on the outputs; the ones that are left stand beside what was removed
  induction names generalizing fs removed with
  | nil =>
      obtain ⟨rfl, rfl⟩ := Run.ok_inj h
      exact ⟨rfl, rfl, by simp⟩
  | cons name names ih =>
      obtain ⟨hother, hnodup⟩ := List.nodup_cons.1 hnodup
      rw [cutAll, List.foldl_cons, ← cutAll] at hfind
      rw [List.map_cons] at h
      obtain ⟨first, rest, fs₁, hfirst, hrest, rfl⟩ := of_exec_collect_cons_ok h
      obtain ⟨there, fs₃, hremove, hfirst⟩ := of_exec_bind_ok hfirst
      obtain ⟨rfl, rfl⟩ := Run.ok_inj hfirst
      have hcut : Lookup.find caller (fs.cut (l ++ [name])) true p = .ok (l, top) :=
        Lookup.find_within (cutAll_within _ l names) hfind
      obtain ⟨rfl, rfl, hcheck⟩ := of_removePath_ok wf hcut (hnames name List.mem_cons_self)
        (of_exec_mapError_ok hremove)
      obtain ⟨hlisted, rfl, hchecks⟩ := ih (wf.cut _) hfind hnodup
        (fun other hmem => hnames other (List.mem_cons_of_mem name hmem)) hrest
      refine ⟨?_, rfl, ?_⟩
      · have hsame : standing (fs.cut (l ++ [name])) l p names = standing fs l p names := by
          rw [standing, standing]
          congr 1
          apply List.filter_congr
          intro other hmem
          rw [get?_cut, if_neg]
          intro hbelow
          have heq : name = other := by simpa using (List.prefix_append_right_inj l).1 hbelow
          exact hother (heq ▸ hmem)
        rw [hlisted, hsame, standing, standing, List.filter_cons]
        cases (fs.get? (l ++ [name])).isSome <;> rfl
      · intro other hmem
        rcases List.mem_cons.1 hmem with rfl | hmem
        · exact hcheck
        · rw [← hchecks other hmem]
          apply Lookup.checkEntry_congr
          rw [get?_cut, if_neg (not_concat_below l name)]

/-- Removing entries of which none is there does nothing. -/
theorem exec_removeOutputs_vacant (hfind : Lookup.find caller fs true p = .ok (l, top))
    {names : List String} (hnames : ∀ name ∈ names, Path.IsName name)
    (hentry : ∀ name ∈ names, Lookup.checkEntry caller fs l p name = .ok ())
    (hnone : ∀ name ∈ names, fs.get? (l ++ [name]) = none) :
    (collect removeOutput (names.map fun name => p.join ⟨name⟩)).exec caller fs = (.ok [], fs) := by
  refine exec_collect_nothing (List.forall_mem_map.2 fun name hname => ?_)
  have hremove := exec_removePath_vacant hfind (hnames name hname) (hentry name hname)
    (hnone name hname)
  rw [removeOutput, exec_bind, remarked, mapError, exec_ofExec, hremove]
  rfl

variable {r : Release}

/-- Cleaning up leaves what the file system held apart from the outputs, and lists those outputs that
were there. -/
theorem of_clean_ok (wf : fs.WellFormed) (hstem : '/' ∉ r.metadata.stem.toList)
    (hroot : Lookup.find caller (r.bare l fs) true r.root = .ok (l, top)) {removed : List Path}
    (h : (clean r).exec caller fs = (.ok removed, fs')) :
    removed = standing fs l r.root r.outputNames ∧ fs' = r.bare l fs ∧
      ∀ name ∈ r.outputNames, Lookup.checkEntry caller fs' l r.root name = .ok () := by
  rw [clean_eq, r.outputs_eq] at h
  obtain ⟨hlisted, rfl, hchecks⟩ := of_removeOutputs_ok wf hroot r.nodup_outputNames
    (Release.isName_of_mem_outputNames hstem) h
  refine ⟨hlisted, rfl, fun name hname => ?_⟩
  rw [← hchecks name hname]
  apply Lookup.checkEntry_congr
  rw [get?_cutAll, if_neg]
  rintro ⟨other, _, hbelow⟩
  exact not_concat_below l other hbelow

/-- Without the outputs, no output is there. -/
theorem get?_bare_output {name : String} (hname : name ∈ r.outputNames) :
    (r.bare l fs).get? (l ++ [name]) = none := by
  rw [Release.get?_bare, if_pos ⟨name, hname, List.prefix_rfl⟩]

/-- Cleaning changes nothing when no output is there. -/
theorem exec_clean_bare (hstem : '/' ∉ r.metadata.stem.toList)
    (hroot : Lookup.find caller (r.bare l fs) true r.root = .ok (l, top))
    (hentry : ∀ name ∈ r.outputNames, Lookup.checkEntry caller (r.bare l fs) l r.root name = .ok ()) :
    (clean r).exec caller (r.bare l fs) = (.ok [], r.bare l fs) := by
  rw [clean_eq, r.outputs_eq]
  exact exec_removeOutputs_vacant hroot (Release.isName_of_mem_outputNames hstem) hentry
    fun name hname => get?_bare_output hname

/-! ## Creating the staging directory -/

/-- Where nothing stands, creating the staging directory creates one directory, or fails for the reason
that this fails for. -/
theorem exec_create_vacant (hfind : Lookup.find caller fs true r.root = .ok (l, top))
    (hstem : '/' ∉ r.metadata.stem.toList) (hnone : fs.get? (l ++ [r.metadata.stem]) = none) :
    (create r).exec caller fs =
      match fs.makeDirectory caller r.stagingDirectory with
      | .ok fs' => (.ok r.stagingDirectory, fs')
      | .error e => (.error (.file (e.withContext ("Failed to create " ++ r.stagingDirectory.text))), fs) := by
  have hname := Release.isName_of_mem_outputNames hstem _ (List.mem_cons_self)
  have hvacant : fs.isDirectory caller r.stagingDirectory = false := isDirectory_vacant hfind hname hnone
  have hasked : (Storage.isDirectory r.stagingDirectory : Storage Failure Bool).exec caller fs =
      (.ok false, fs) := by
    rw [Storage.isDirectory, Storage.query, exec_ofExec, hvacant]
  have hcreate : (createDirectories r.stagingDirectory).exec caller fs =
      match fs.makeDirectory caller r.stagingDirectory with
      | .ok fs' => (.ok (), fs')
      | .error e => (.error e, fs) := by
    refine (exec_createDirectories_join hfind hname).trans ?_
    rw [show r.root.join ⟨r.metadata.stem⟩ = r.stagingDirectory from rfl, hvacant]
    rfl
  rw [create, exec_bind, hasked]
  simp only [Bool.false_eq_true, if_false]
  rw [exec_bind, remarked, mapError, exec_ofExec, hcreate]
  cases fs.makeDirectory caller r.stagingDirectory <;> rfl

/-- Where nothing stands, the staging directory is not refused as one that is not empty. -/
theorem exec_create_ne_stagingNotEmpty (hfind : Lookup.find caller fs true r.root = .ok (l, top))
    (hstem : '/' ∉ r.metadata.stem.toList) (hnone : fs.get? (l ++ [r.metadata.stem]) = none)
    (path : Path) : ((create r).exec caller fs).1 ≠ .error (.stage (.stagingNotEmpty path)) := by
  rw [exec_create_vacant hfind hstem hnone]
  cases fs.makeDirectory caller r.stagingDirectory <;> simp

/-- The staging directory that was created where nothing stood is empty. -/
theorem of_create_ok (wf : fs.WellFormed) (hfind : Lookup.find caller fs true r.root = .ok (l, top))
    (hstem : '/' ∉ r.metadata.stem.toList) (hnone : fs.get? (l ++ [r.metadata.stem]) = none)
    {path : Path} (h : (create r).exec caller fs = (.ok path, fs')) :
    path = r.stagingDirectory ∧ (isEmpty path).exec caller fs' = (.ok true, fs') := by
  have hname := Release.isName_of_mem_outputNames hstem _ (List.mem_cons_self)
  rw [exec_create_vacant hfind hstem hnone] at h
  cases hmake : fs.makeDirectory caller r.stagingDirectory with
  | error e =>
      rw [hmake] at h
      exact absurd (congrArg Prod.fst h) (by simp)
  | ok made =>
      rw [hmake] at h
      obtain ⟨rfl, rfl⟩ := Run.ok_inj h
      refine ⟨rfl, ?_⟩
      obtain ⟨_, hentry, hset⟩ := Run.of_bind_ok ((makeDirectory_join hfind hname).symm.trans hmake)
      obtain ⟨_, hset⟩ := Run.of_check_ok hset
      obtain ⟨_, _, hset⟩ := Run.of_bind_ok hset
      obtain rfl := Except.ok.inj hset
      -- the root is still found, and the new directory in it
      have hwithin : fs.Within (fs.set (l ++ [r.metadata.stem]) (.directory Mode.directory caller.now)) := by
        intro k node hnode
        rw [get?_set, if_neg, hnode]
        rintro rfl
        simp [hnone] at hnode
      have hstays : (fs.set (l ++ [r.metadata.stem]) (.directory Mode.directory caller.now)).get? l =
          fs.get? l := by
        rw [get?_set, if_neg (by simp)]
      have hfound := Lookup.find_join (Lookup.find_within hwithin hfind) hname
      rw [Lookup.checkEntry_congr hstays, hentry, get?_set, if_pos rfl] at hfound
      have hthere := Lookup.find_follow (by simp [Node.kind]) hfound
      -- nothing can stand in a directory that was not there
      have hchildren : (fs.set (l ++ [r.metadata.stem]) (.directory Mode.directory caller.now)).children
          (l ++ [r.metadata.stem]) = [] := by
        apply List.eq_nil_iff_forall_not_mem.2
        rintro ⟨entry, node⟩ hmem
        have hbelow := mem_children.1 hmem
        rw [get?_set, if_neg (by simp)] at hbelow
        obtain ⟨directory, hdirectory, _⟩ := wf.parent _ _ _ hbelow
        simp [hnone] at hdirectory
      have hread : readDirectory caller (fs.set (l ++ [r.metadata.stem])
          (.directory Mode.directory caller.now)) r.stagingDirectory = .ok [] := by
        have hmay : caller.may .read (.directory Mode.directory caller.now) = true := by
          rw [Caller.may, Bool.or_eq_true]
          exact Or.inr (show Mode.directory.allows .read = true by decide)
        rw [readDirectory, show Lookup.find caller _ true r.stagingDirectory = _ from hthere]
        simp [Node.kind, hmay, hchildren, bind, Except.bind, pure, Except.pure]
      rw [isEmpty, Storage.query, exec_ofExec, hread]
      rfl

end RpmRelease.Staging
