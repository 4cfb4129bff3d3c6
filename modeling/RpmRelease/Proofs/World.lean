import RpmRelease.Proofs.FileSystem.Storage
import RpmRelease.World

/-!
# Running sessions

How each way to put sessions together runs, and how programs on files that are put together become
sessions that are put together.
-/

set_option autoImplicit false

namespace RpmRelease.Session

variable {α β : Type}

/-- Sessions that do the same in every world are equal. -/
theorem ext {x y : Session α} (h : ∀ host world, x.exec host world = y.exec host world) : x = y :=
  funext fun host => funext fun world => h host world

/-- One session after the other: the second one is carried out in the world that the first one has
left, unless that has failed. -/
theorem exec_bind (x : Session α) (f : α → Session β) (host : Host) (world : World) :
    (x >>= f).exec host world =
      match x.exec host world with
      | (.ok a, world') => (f a).exec host world'
      | (.error failure, world') => (.error failure, world') := by
  have hbind : (x >>= f).exec host world = (x host >>= fun a => f a host).run world := rfl
  have hfirst : x.exec host world = (x host).run world := rfl
  rw [hbind, hfirst, Run.run_bind]
  rcases (x host).run world with ⟨_ | _, _⟩ <;> rfl

/-- When two sessions succeed one after the other, each of them does. -/
theorem of_exec_bind_ok {x : Session α} {f : α → Session β} {host : Host} {world world' : World}
    {b : β} (h : (x >>= f).exec host world = (.ok b, world')) :
    ∃ a middle, x.exec host world = (.ok a, middle) ∧ (f a).exec host middle = (.ok b, world') :=
  Run.of_run_bind_ok (x := x host) (f := fun a => f a host) h

/-- When a checked session succeeds, the check does not fail and the session succeeds. -/
theorem of_exec_check_ok {γ : Type} {c : Prop} [Decidable c] {failure : Failure}
    {f : γ → Session α} {x : Session α} {host : Host} {world world' : World} {a : α}
    (h : (if c then throw failure >>= f else x).exec host world = (.ok a, world')) :
    ¬ c ∧ x.exec host world = (.ok a, world') := by
  by_cases hc : c
  · rw [if_pos hc] at h
    obtain ⟨_, _, hthrow, _⟩ := of_exec_bind_ok h
    exact absurd hthrow Run.run_throw_ne_ok
  · rw [if_neg hc] at h
    exact ⟨hc, h⟩

/-- A program on files changes the files and nothing else of a world. -/
theorem exec_files (program : Storage Failure α) (host : Host) (world : World) :
    (files program).exec host world =
      ((program.exec host.caller world.files).1,
        { world with files := (program.exec host.caller world.files).2 }) := rfl

/-- A program on files that succeeds leaves its files. -/
theorem of_exec_files_ok {program : Storage Failure α} {host : Host} {world world' : World} {a : α}
    (h : (files program).exec host world = (.ok a, world')) :
    program.exec host.caller world.files = (.ok a, world'.files) := by
  rw [exec_files] at h
  have houtcome : (program.exec host.caller world.files).1 = .ok a := congrArg Prod.fst h
  have hworld := congrArg Prod.snd h
  exact Prod.ext houtcome (congrArg World.files hworld)

/-- A function on the value of a session leaves its world. -/
theorem exec_map (f : α → β) (x : Session α) (host : Host) (world : World) :
    (f <$> x).exec host world = ((x.exec host world).1.map f, (x.exec host world).2) := by
  rw [map_eq_pure_bind, exec_bind]
  rcases x.exec host world with ⟨_ | _, _⟩ <;> rfl

/-- Two programs on files one after the other are one. -/
theorem files_bind (program : Storage Failure α) (f : α → Storage Failure β) :
    files (program >>= f) = files program >>= fun a => files (f a) := by
  refine ext fun host world => ?_
  rw [exec_bind, exec_files, exec_files, Storage.exec_bind]
  rcases program.exec host.caller world.files with ⟨_ | _, _⟩ <;> rfl

/-- Returning a value is a program on files. -/
theorem files_pure (a : α) : files (pure a) = pure a := rfl

/-- A function on the value of a program on files is one on that of the session. -/
theorem files_map (f : α → β) (program : Storage Failure α) :
    files (f <$> program) = f <$> files program := by
  rw [map_eq_pure_bind, files_bind, map_eq_pure_bind]
  rfl

/-- Programs on files for the items of a list are one. -/
theorem files_mapM {ι : Type} (f : ι → Storage Failure α) (items : List ι) :
    files (items.mapM f) = items.mapM fun item => files (f item) := by
  induction items with
  | nil =>
      rw [List.mapM_nil, List.mapM_nil, files_pure]
  | cons item items ih =>
      simp only [List.mapM_cons, files_bind, files_pure, ih]

end RpmRelease.Session
