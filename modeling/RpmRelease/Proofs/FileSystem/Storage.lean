import RpmRelease.FileSystem.Storage
import RpmRelease.Proofs.Run

/-!
# Running programs on the file system

How each way to put programs together runs.  A sequence goes on from the file system that its first
part left, and what has been changed before a failure stays.
-/

set_option autoImplicit false

namespace RpmRelease.Storage

variable {ε δ α β : Type} {caller : Caller} {fs fs' : FileSystem}

/-- A program given by what it does is carried out by doing that. -/
theorem exec_ofExec (run : Caller → FileSystem → Except ε α × FileSystem) (caller : Caller)
    (fs : FileSystem) : (ofExec run).exec caller fs = run caller fs :=
  rfl

/-- A program whose outcome is known ends with it and leaves some files. -/
theorem exec_eq_of_outcome {program : Storage ε α} {outcome : Except ε α}
    (h : (program.exec caller fs).1 = outcome) :
    program.exec caller fs = (outcome, (program.exec caller fs).2) :=
  Prod.ext h rfl

/-- Two programs one after the other: the second one is carried out where the first one has led,
unless that has failed. -/
theorem exec_bind (x : Storage ε α) (f : α → Storage ε β) (caller : Caller) (fs : FileSystem) :
    (x >>= f).exec caller fs =
      match x.exec caller fs with
      | (.ok a, fs') => (f a).exec caller fs'
      | (.error e, fs') => (.error e, fs') := by
  have hbind : (x >>= f).exec caller fs = (x caller >>= fun a => f a caller).run fs := rfl
  have hfirst : x.exec caller fs = (x caller).run fs := rfl
  rw [hbind, hfirst, Run.run_bind]
  rcases (x caller).run fs with ⟨_ | _, _⟩ <;> rfl

/-- When two programs succeed one after the other, each of them does. -/
theorem of_exec_bind_ok {x : Storage ε α} {f : α → Storage ε β} {b : β}
    (h : (x >>= f).exec caller fs = (.ok b, fs')) :
    ∃ a middle, x.exec caller fs = (.ok a, middle) ∧ (f a).exec caller middle = (.ok b, fs') :=
  Run.of_run_bind_ok (x := x caller) (f := fun a => f a caller) h

/-- A sequence that fails does so in one of its parts. -/
theorem of_exec_bind_error {x : Storage ε α} {f : α → Storage ε β} {e : ε}
    (h : (x >>= f).exec caller fs = (.error e, fs')) : x.exec caller fs = (.error e, fs') ∨
      ∃ a middle, x.exec caller fs = (.ok a, middle) ∧
        (f a).exec caller middle = (.error e, fs') := by
  rw [exec_bind] at h
  rcases hx : x.exec caller fs with ⟨cause | a, middle⟩
  · rw [hx] at h
    left
    cases h
    rfl
  · rw [hx] at h
    right
    exact ⟨a, middle, rfl, h⟩

/-- An error that was made of another one comes from that. -/
theorem of_exec_mapError_error {f : ε → δ} {program : Storage ε α} {e : δ}
    (h : (mapError f program).exec caller fs = (.error e, fs')) :
    ∃ cause, program.exec caller fs = (.error cause, fs') := by
  have hpair : (((program.exec caller fs).1.mapError f, (program.exec caller fs).2) :
      Except δ α × FileSystem) = (.error e, fs') := h
  rcases hrun : program.exec caller fs with ⟨cause | a, middle⟩
  · rw [hrun] at hpair
    exact ⟨cause, congrArg (Prod.mk _) (congrArg Prod.snd hpair)⟩
  · rw [hrun] at hpair
    exact absurd (congrArg Prod.fst hpair) (by simp [Except.mapError])

/-- When a checked program succeeds, the check does not fail and the program succeeds. -/
theorem of_exec_check_ok {γ : Type} {c : Prop} [Decidable c] {e : ε} {f : γ → Storage ε α}
    {x : Storage ε α} {a : α}
    (h : (if c then throw e >>= f else x).exec caller fs = (.ok a, fs')) :
    ¬ c ∧ x.exec caller fs = (.ok a, fs') := by
  by_cases hc : c
  · rw [if_pos hc] at h
    obtain ⟨_, _, hthrow, _⟩ := of_exec_bind_ok h
    exact absurd hthrow Run.run_throw_ne_ok
  · rw [if_neg hc] at h
    exact ⟨hc, h⟩

/-- When a question is answered, the files stay. -/
theorem of_exec_query_ok {f : Caller → FileSystem → Except ε α} {a : α}
    (h : (query f).exec caller fs = (.ok a, fs')) : f caller fs = .ok a ∧ fs = fs' := by
  have hpair : ((f caller fs, fs) : Except ε α × FileSystem) = (.ok a, fs') := h
  exact ⟨congrArg Prod.fst hpair, congrArg Prod.snd hpair⟩

/-- When a change succeeds, it leaves what it makes of the files. -/
theorem of_exec_change_ok {f : Caller → FileSystem → Except ε FileSystem}
    (h : (change f).exec caller fs = (.ok (), fs')) : f caller fs = .ok fs' := by
  rw [change, exec_ofExec] at h
  rcases hchange : f caller fs with e | changed
  · rw [hchange] at h
    exact absurd (congrArg Prod.fst h) (by simp)
  · rw [hchange] at h
    rw [(Run.ok_inj h).2]

/-- A change that succeeds leaves what it makes of the files. -/
theorem exec_change_ok {f : Caller → FileSystem → Except ε FileSystem}
    (h : f caller fs = .ok fs') : (change f).exec caller fs = (.ok (), fs') := by
  rw [change, exec_ofExec, h]

/-- A change that fails leaves the files. -/
theorem exec_change_error {f : Caller → FileSystem → Except ε FileSystem} {e : ε}
    (h : f caller fs = .error e) : (change f).exec caller fs = (.error e, fs) := by
  rw [change, exec_ofExec, h]

/-- The outcome that is looked at is that of the program. -/
theorem of_exec_attempt_ok {program : Storage ε α} {outcome : Except ε α}
    (h : (attempt program : Storage δ (Except ε α)).exec caller fs = (.ok outcome, fs')) :
    program.exec caller fs = (outcome, fs') := by
  obtain ⟨houtcome, hfs⟩ := Run.ok_inj h
  exact Prod.ext houtcome hfs

/-- Turning errors into others leaves a success. -/
theorem exec_mapError_of_ok {f : ε → δ} {program : Storage ε α} {a : α}
    (h : program.exec caller fs = (.ok a, fs')) :
    (mapError f program).exec caller fs = (.ok a, fs') := by
  have hpair : (mapError f program).exec caller fs =
      ((program.exec caller fs).1.mapError f, (program.exec caller fs).2) := rfl
  rw [hpair, h]
  rfl

/-- A success is one before errors are turned into others. -/
theorem of_exec_mapError_ok {f : ε → δ} {program : Storage ε α} {a : α}
    (h : (mapError f program).exec caller fs = (.ok a, fs')) :
    program.exec caller fs = (.ok a, fs') := by
  have hpair : (((program.exec caller fs).1.mapError f, (program.exec caller fs).2) :
      Except δ α × FileSystem) = (.ok a, fs') := h
  rcases hrun : program.exec caller fs with ⟨e | b, middle⟩
  · rw [hrun] at hpair
    exact absurd (congrArg Prod.fst hpair) (by simp [Except.mapError])
  · rw [hrun] at hpair
    have hsame : ((.ok b, middle) : Except δ α × FileSystem) = (.ok a, fs') := hpair
    obtain ⟨rfl, rfl⟩ := Run.ok_inj hsame
    rfl

/-- A function on the result of a program that succeeds is applied to it. -/
theorem of_exec_map_ok {f : α → β} {program : Storage ε α} {b : β}
    (h : (f <$> program).exec caller fs = (.ok b, fs')) :
    ∃ a, program.exec caller fs = (.ok a, fs') ∧ f a = b := by
  rw [map_eq_pure_bind] at h
  obtain ⟨a, middle, hrun, h⟩ := of_exec_bind_ok h
  obtain ⟨hvalue, rfl⟩ := Run.ok_inj h
  exact ⟨a, hrun, hvalue⟩

/-! ## Counting over items -/

section Counting

variable {ι : Type} {program : ι → Storage ε Nat}

/-- Counting over items counts for the first one and then over the others. -/
theorem exec_countOver_cons (item : ι) (items : List ι) :
    (countOver program (item :: items)).exec caller fs =
      match (program item).exec caller fs with
      | (.ok m, middle) =>
        match (countOver program items).exec caller middle with
        | (.ok n, after) => (.ok (m + n), after)
        | (.error e, after) => (.error e, after)
      | (.error e, middle) => (.error e, middle) := by
  rw [countOver, exec_bind]
  rcases (program item).exec caller fs with ⟨e | m, middle⟩
  · rfl
  · simp only [exec_bind]
    rcases (countOver program items).exec caller middle with ⟨e | n, after⟩ <;> rfl

/-- Items that follow others are gone over from where the others have led, and counted on top. -/
theorem exec_countOver_append (first second : List ι) :
    (countOver program (first ++ second)).exec caller fs =
      match (countOver program first).exec caller fs with
      | (.ok m, middle) =>
        match (countOver program second).exec caller middle with
        | (.ok n, after) => (.ok (m + n), after)
        | (.error e, after) => (.error e, after)
      | (.error e, middle) => (.error e, middle) := by
  induction first generalizing fs with
  | nil =>
      have hnil : (countOver program []).exec caller fs = (.ok 0, fs) := rfl
      rw [List.nil_append, hnil]
      dsimp only
      rcases (countOver program second).exec caller fs with ⟨e | n, after⟩
      · rfl
      · simp only [Nat.zero_add]
  | cons item first ih =>
      rw [List.cons_append, exec_countOver_cons, exec_countOver_cons]
      rcases (program item).exec caller fs with ⟨e | k, middle⟩
      · rfl
      · dsimp only
        rw [ih]
        rcases (countOver program first).exec caller middle with ⟨e | m, later⟩
        · rfl
        · dsimp only
          rcases (countOver program second).exec caller later with ⟨e | n, after⟩
          · rfl
          · simp only [Nat.add_assoc]

/-- What has been gone over without an error was gone over part by part. -/
theorem of_exec_countOver_cons_ok {item : ι} {items : List ι} {n : Nat}
    (h : (countOver program (item :: items)).exec caller fs = (.ok n, fs')) :
    ∃ m k middle, (program item).exec caller fs = (.ok m, middle) ∧
      (countOver program items).exec caller middle = (.ok k, fs') := by
  obtain ⟨m, middle, hitem, hrest⟩ := of_exec_bind_ok h
  obtain ⟨k, after, hitems, hlast⟩ := of_exec_bind_ok hrest
  obtain ⟨-, rfl⟩ := Run.ok_inj hlast
  exact ⟨m, k, middle, hitem, hitems⟩

/-- When counting over two lists succeeds, it does over each, the second one where the first has led.
-/
theorem of_exec_countOver_append_ok {first second : List ι} {n : Nat}
    (h : (countOver program (first ++ second)).exec caller fs = (.ok n, fs')) :
    ∃ m k middle, (countOver program first).exec caller fs = (.ok m, middle) ∧
      (countOver program second).exec caller middle = (.ok k, fs') := by
  induction first generalizing fs n with
  | nil => exact ⟨0, n, fs, rfl, h⟩
  | cons item first ih =>
      obtain ⟨m, _, middle, hitem, hrest⟩ := of_exec_countOver_cons_ok h
      obtain ⟨j, k, after, hfirst, hsecond⟩ := ih hrest
      exact ⟨m + j, k, after, by rw [exec_countOver_cons, hitem]; simp only [hfirst], hsecond⟩

/-- Programs that change nothing change nothing one after the other. -/
theorem exists_exec_countOver {items : List ι}
    (h : ∀ item ∈ items, ∃ n, (program item).exec caller fs = (.ok n, fs)) :
    ∃ n, (countOver program items).exec caller fs = (.ok n, fs) := by
  induction items with
  | nil => exact ⟨0, rfl⟩
  | cons item items ih =>
      obtain ⟨m, hitem⟩ := h item List.mem_cons_self
      obtain ⟨n, hitems⟩ := ih fun other hother => h other (List.mem_cons_of_mem item hother)
      exact ⟨m + n, by rw [exec_countOver_cons, hitem]; simp only [hitems]⟩

end Counting

/-! ## Collecting over items -/

section Collecting

variable {ι : Type} {program : ι → Storage ε (List α)}

/-- Does something for each item in turn, and puts the lists together. -/
def collect (program : ι → Storage ε (List α)) (items : List ι) : Storage ε (List α) := do
  let lists ← items.mapM program
  return lists.flatten

/-- When collecting over items succeeds, it does for the first one and then over the others. -/
theorem of_exec_collect_cons_ok {item : ι} {items : List ι} {found : List α}
    (h : (collect program (item :: items)).exec caller fs = (.ok found, fs')) :
    ∃ first more middle, (program item).exec caller fs = (.ok first, middle) ∧
      (collect program items).exec caller middle = (.ok more, fs') ∧ first ++ more = found := by
  rw [collect, List.mapM_cons] at h
  obtain ⟨_, _, h, hflatten⟩ := of_exec_bind_ok h
  obtain ⟨first, middle, hitem, h⟩ := of_exec_bind_ok h
  obtain ⟨lists, after, hitems, h⟩ := of_exec_bind_ok h
  obtain ⟨rfl, rfl⟩ := Run.ok_inj h
  obtain ⟨rfl, rfl⟩ := Run.ok_inj hflatten
  refine ⟨first, lists.flatten, middle, hitem, ?_, rfl⟩
  rw [collect, exec_bind, hitems]
  rfl

/-- Programs that find nothing and change nothing do so one after the other. -/
theorem exec_collect_nothing {items : List ι}
    (h : ∀ item ∈ items, (program item).exec caller fs = (.ok [], fs)) :
    (collect program items).exec caller fs = (.ok [], fs) := by
  have hlists : ∃ lists, (items.mapM program).exec caller fs = (.ok lists, fs) ∧ lists.flatten = [] := by
    induction items with
    | nil => exact ⟨[], rfl, rfl⟩
    | cons item items ih =>
        obtain ⟨lists, hitems, hnil⟩ := ih fun other hother => h other (List.mem_cons_of_mem item hother)
        refine ⟨[] :: lists, ?_, hnil⟩
        rw [List.mapM_cons, exec_bind, h item List.mem_cons_self]
        simp only [exec_bind, hitems]
        rfl
  obtain ⟨lists, hitems, hnil⟩ := hlists
  rw [collect, exec_bind, hitems]
  simp only [hnil]
  rfl

end Collecting

end RpmRelease.Storage
