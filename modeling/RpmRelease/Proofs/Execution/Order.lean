import RpmRelease.Proofs.Execution.Delivery

/-!
# The order of a release run

The target for a package records the release, removes what is left of earlier runs, exports the tag,
archives what was exported and builds the package.  The steps of these parts, one behind the other,
are the history of a whole run.
-/

set_option autoImplicit false

namespace RpmRelease.Execution

variable {α β : Type} {host : Host} {r : Release} {R : List Event → Prop} {P : Condition}

/-! ## Sessions that open the repository once -/

/-- A triple for a session that keeps the repository once it is open. -/
structure RunTriple (host : Host) (r : Release) (P : Condition) (x : Run α) (Q : α → Condition) :
    Prop where
  run : ∀ opened : Option Repository, (∀ repository ∈ opened, repository = ⟨r.root⟩) →
    Triple host r P (x opened) fun result history files =>
      (∀ repository ∈ result.2, repository = ⟨r.root⟩) ∧ Q result.1 history files

/-- Returning a value changes nothing. -/
theorem RunTriple.pure {a : α} {Q : α → Condition}
    (h : ∀ history files, P history files → Q a history files) : RunTriple host r P (pure a) Q where
  run := fun _ hopened => Triple.pure fun history files hP => ⟨hopened, h history files hP⟩

/-- One session after the other, where what holds behind the first is what the second asks for. -/
theorem RunTriple.bind {x : Run α} {f : α → Run β} {Q : α → Condition} {S : β → Condition}
    (hx : RunTriple host r P x Q) (hf : ∀ a, RunTriple host r (Q a) (f a) S) :
    RunTriple host r P (x >>= f) S where
  run := fun opened hopened => Triple.bind (hx.run opened hopened) fun result =>
    Triple.assume fun hresult => (hf result.1).run result.2 hresult

/-- A session that does not need the repository keeps it. -/
theorem RunTriple.lift {x : Session α} {Q : α → Condition} (hx : Triple host r P x Q) :
    RunTriple host r P (liftM x) Q where
  run := fun _ hopened => Triple.bind hx fun _ => Triple.pure fun _ _ h => ⟨hopened, h⟩

/-- What holds apart from the history may be assumed. -/
theorem RunTriple.assume {c : Prop} {x : Run α} {Q : α → Condition}
    (h : c → RunTriple host r P x Q) :
    RunTriple host r (fun history files => c ∧ P history files) x Q where
  run := fun opened hopened => Triple.assume fun hc => (h hc).run opened hopened

/-- Looking at the repository that is kept finds that of the root, if any. -/
theorem RunTriple.get : RunTriple host r P get fun opened history files =>
    (∀ repository ∈ opened, repository = ⟨r.root⟩) ∧ P history files where
  run := fun _ hopened => Triple.pure fun _ _ h => ⟨hopened, hopened, h⟩

/-- Keeping the repository of the root changes nothing else. -/
theorem RunTriple.set : RunTriple host r P (set (some (⟨r.root⟩ : Repository))) fun _ => P where
  run := fun _ _ => Triple.pure fun _ _ h => ⟨by simp, h⟩

/-- The repository is that of the root, whether it was open or is opened now. -/
theorem runTriple_repository (hR : Lasting R) :
    RunTriple host r (fun history _ => R history) (repository r)
      fun repository history _ => repository = ⟨r.root⟩ ∧ R history := by
  unfold repository
  refine RunTriple.bind RunTriple.get fun opened => RunTriple.assume fun hopened => ?_
  cases opened with
  | some repository => exact RunTriple.pure fun _ _ h => ⟨hopened repository rfl, h⟩
  | none =>
      refine RunTriple.bind (RunTriple.lift (triple_openAt hR)) fun repository => ?_
      refine RunTriple.assume fun hroot => ?_
      subst hroot
      exact RunTriple.bind RunTriple.set fun _ => RunTriple.pure fun _ _ h => ⟨rfl, h⟩

/-! ## The parts of a run -/

/-- Showing the tag takes no steps. -/
theorem triple_showTag (outcome : Recording.TagOutcome) :
    Triple host r P (showTag r outcome) fun _ => P := by
  unfold showTag
  split
  · exact Triple.bind (Triple.print _) fun _ => Triple.print _
  · exact Triple.print _

/-- Recording the release creates its tag. -/
theorem runTriple_recordRelease (hR : Lasting R) (options : RunOptions) :
    RunTriple host r (fun history _ => R history) (recordRelease r options)
      fun _ history _ => R history ∧ Tagged host r history := by
  unfold recordRelease
  refine RunTriple.bind (runTriple_repository hR) fun repository => ?_
  refine RunTriple.assume fun hroot => ?_
  subst hroot
  refine RunTriple.bind (RunTriple.lift (triple_record hR _)) fun outcomes => ?_
  obtain ⟨changelog, tag⟩ := outcomes
  exact RunTriple.bind (RunTriple.lift (Triple.print _)) fun _ => RunTriple.lift (triple_showTag _)

/-- Cleaning up undoes nothing that lasts. -/
theorem runTriple_cleanDist (hR : Lasting R) (options : RunOptions) :
    RunTriple host r (fun history _ => R history) (runAction r options .cleanDist)
      fun _ history _ => R history := by
  unfold runAction
  refine RunTriple.bind (RunTriple.lift (triple_clean hR)) fun removed => ?_
  split
  · exact RunTriple.lift (Triple.print _)
  · exact RunTriple.pure fun _ _ h => h

/-- Exporting a release that is tagged unpacks it. -/
theorem runTriple_runExport (hR : Lasting R) (htagged : ∀ history, R history → Tagged host r history) :
    RunTriple host r (fun history _ => R history) (runExport r)
      fun _ history _ => R history ∧ Unpacked host r history := by
  unfold runExport
  refine RunTriple.bind (runTriple_repository hR) fun repository => RunTriple.assume fun hroot => ?_
  subst hroot
  refine RunTriple.bind (RunTriple.lift (triple_stage hR htagged)) fun entries => ?_
  exact RunTriple.lift (Triple.print _)

/-- The steps for a package end with the builder. -/
theorem runTriple_steps (options : RunOptions) :
    RunTriple host r (fun _ _ => True)
      (runSteps r options [.changelog, .tag, .cleanDist, .exportTag, .archive, .buildRpm])
      fun _ history _ => Did host r history .build .done := by
  have hnothing : Lasting fun _ => True := fun _ _ h => h
  have htagged : Lasting fun history => True ∧ Tagged host r history := hnothing.and lasting_tagged
  unfold runSteps
  refine RunTriple.bind (runTriple_recordRelease hnothing options) fun _ => ?_
  refine RunTriple.bind (runTriple_cleanDist htagged options) fun _ => ?_
  refine RunTriple.bind (runTriple_runExport htagged fun _ h => h.2) fun _ => ?_
  refine RunTriple.bind (RunTriple.lift (triple_runArchive (htagged.and lasting_unpacked)
    fun _ h => h.2)) fun _ => ?_
  refine RunTriple.bind (RunTriple.lift triple_runBuilder) fun _ => ?_
  exact RunTriple.pure fun _ _ h => h

/-- The plan of the package target. -/
theorem plan_rpm :
    Target.rpm.plan = [.changelog, .tag, .cleanDist, .exportTag, .archive, .buildRpm] := by
  cbv

/-- The package target takes its steps in order. -/
theorem triple_run_rpm (options : RunOptions) :
    Triple host r (fun _ _ => True) (run r { options with dryRun := false } .rpm)
      fun _ history _ => Did host r history .build .done := by
  unfold run
  rw [plan_rpm, if_neg (by simp)]
  have hsteps := (@runTriple_steps host r { options with dryRun := false }).run none
    (by simp)
  refine Triple.bind (Triple.map (Q := fun _ history _ => Did host r history .build .done)
    (hsteps.weaken (fun _ _ h => h) fun _ _ _ h => h.2)) fun _ => ?_
  exact Triple.print _

/-- Every run for a package is explained by an ordered history, in which the repository is only given
the listed commands and questions.  Nothing is tagged before the changelog is written and everything is
committed; nothing is archived by the repository before the release is tagged, and then it is that tag;
nothing is unpacked unless the tag was found, listed and archived; the staging directory is archived
after that was unpacked; and the builder is started after all was archived, with the archive of this
run.  A run that succeeds has done all its steps and
built the package.  A run that fails does so with its last step, all others have succeeded, and no
program is started and no file is changed after it. -/
theorem exists_history_of_run_rpm (host : Host) (r : Release) (options : RunOptions) (world : World) :
    match (run r { options with dryRun := false } .rpm).exec host world with
    | (.ok (), world') => ∃ history, Explains host r world history world' ∧
        Ordered host r history ∧ (∀ e ∈ history, e.Succeeded host r) ∧
        Did host r history .build .done
    | (.error failure, world') => ∃ history last,
        Explains host r world (history ++ [last]) world' ∧ Ordered host r (history ++ [last]) ∧
        (∀ e ∈ history, e.Succeeded host r) ∧
        last.outcome host r = .error failure ∧ world' = last.after host r := by
  have hstart : Sound host r world [] world := ⟨.start, by simp [Ordered], by simp⟩
  have hrun := (@triple_run_rpm host r options).run world [] world hstart trivial
  rcases hexec : (run r { options with dryRun := false } .rpm).exec host world with
    ⟨failure | value, world'⟩
  · rw [hexec] at hrun
    obtain ⟨history, last, hsound, hrequires, houtcome, hafter⟩ := hrun
    refine ⟨history, last, ?_, hsound.ordered.concat hrequires, hsound.succeeded, houtcome,
      hafter.symm⟩
    rw [← hafter]
    exact hsound.explains.step last.step
  · rw [hexec] at hrun
    obtain ⟨history, hsound, hbuilt⟩ := hrun
    exact ⟨history, hsound.explains, hsound.ordered, hsound.succeeded, hbuilt⟩

end RpmRelease.Execution
