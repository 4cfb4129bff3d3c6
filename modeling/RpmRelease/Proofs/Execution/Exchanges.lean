import RpmRelease.Execution
import RpmRelease.Proofs.World

/-!
# What sessions exchange with other programs

The world keeps every program that was started and what it answered.  `Session.Adds` relates what a
session adds to that record to how the session ends, whatever the world was before and whatever the
programs do.  The rules follow the ways in which sessions are put together.
-/

set_option autoImplicit false

namespace RpmRelease

variable {α β ι : Type} {host : Host}

namespace Session

/-- How a session ends and what it adds to the exchanges of a world are always related like this. -/
structure Adds (host : Host) (x : Session α) (R : Except Failure α → List Exchange → Prop) :
    Prop where
  run : ∀ world, ∃ new, (x.exec host world).2.exchanges = world.exchanges ++ new ∧
    R (x.exec host world).1 new

/-- Exchanges of one sort only, however the session ends. -/
def Only (P : Exchange → Prop) : Except Failure α → List Exchange → Prop :=
  fun _ new => ∀ e ∈ new, P e

/-- Either a program could not be started, which is a failure, or it is the one exchange there is, and
its response says how the session ends. -/
def Sends (argv : List String) (f : Response → Except Failure α) :
    Except Failure α → List Exchange → Prop :=
  fun outcome new => (∃ failure, outcome = .error failure ∧ new = []) ∨
    ∃ e, new = [e] ∧ e.invocation.argv = argv ∧ outcome = f e.response

section Rules

variable {x : Session α} {f : α → Session β} {Q R : Except Failure α → List Exchange → Prop}
  {S : Except Failure β → List Exchange → Prop} {P : Exchange → Prop}

/-- What is known of a session may be weakened. -/
theorem Adds.weaken (hx : Adds host x Q) (h : ∀ outcome new, Q outcome new → R outcome new) :
    Adds host x R where
  run := fun world => by
    obtain ⟨new, hnew, hQ⟩ := hx.run world
    exact ⟨new, hnew, h _ _ hQ⟩

/-- Returning a value adds nothing. -/
theorem Adds.pure {a : α} (h : R (.ok a) []) : Adds host (pure a : Session α) R where
  run := fun _ => ⟨[], (List.append_nil _).symm, h⟩

/-- Failing adds nothing. -/
theorem Adds.throw {failure : Failure} (h : R (.error failure) []) :
    Adds host (throw failure : Session α) R where
  run := fun _ => ⟨[], (List.append_nil _).symm, h⟩

/-- Returning a value adds exchanges of any one sort. -/
theorem Adds.pureOnly {a : α} : Adds host (Pure.pure a : Session α) (Only P) :=
  .pure (by simp [Only])

/-- Failing adds exchanges of any one sort. -/
theorem Adds.throwOnly {failure : Failure} :
    Adds host (MonadExcept.throw failure : Session α) (Only P) :=
  .throw (by simp [Only])

/-- What a sequence adds is what its first part adds, and then what its second part adds. -/
theorem Adds.bind (hx : Adds host x Q)
    (herror : ∀ failure new, Q (.error failure) new → S (.error failure) new)
    (hf : ∀ a new, Q (.ok a) new → Adds host (f a) fun outcome more => S outcome (new ++ more)) :
    Adds host (x >>= f) S where
  run := fun world => by
    obtain ⟨new, hnew, hQ⟩ := hx.run world
    rw [exec_bind]
    rcases hexec : x.exec host world with ⟨failure | a, middle⟩
    · rw [hexec] at hnew hQ
      exact ⟨new, hnew, herror failure new hQ⟩
    · rw [hexec] at hnew hQ
      obtain ⟨more, hmore, hS⟩ := (hf a new hQ).run middle
      refine ⟨new ++ more, ?_, hS⟩
      rw [hmore, hnew, List.append_assoc]

/-- What two parts of a sequence add makes up what the whole adds. -/
structure Chains (Q : Except Failure α → List Exchange → Prop)
    (R : Except Failure β → List Exchange → Prop) (S : Except Failure β → List Exchange → Prop) :
    Prop where
  stop : ∀ failure new, Q (.error failure) new → S (.error failure) new
  go : ∀ a outcome new more, Q (.ok a) new → R outcome more → S outcome (new ++ more)

/-- The first part may be known to exchange less. -/
theorem chains_imp {P' : Exchange → Prop} (h : ∀ e, P e → P' e) :
    Chains (Only P : Except Failure α → _ → Prop) (Only P')
      (Only P' : Except Failure β → _ → Prop) where
  stop := fun _ _ hnew e he => h e (hnew e he)
  go := fun _ _ _ _ hnew hmore e he =>
    (List.mem_append.1 he).elim (fun he => h e (hnew e he)) fun he => hmore e he

/-- Exchanges of one sort one after the other are of this sort. -/
theorem chains_only : Chains (Only P : Except Failure α → _ → Prop) (Only P)
    (Only P : Except Failure β → _ → Prop) :=
  chains_imp fun _ he => he

/-- What a session adds and what the one behind it adds make up what both add. -/
theorem Adds.chain {R : Except Failure β → List Exchange → Prop} (h : Chains Q R S)
    (hx : Adds host x Q) (hf : ∀ a, Adds host (f a) R) : Adds host (x >>= f) S :=
  hx.bind h.stop fun a new hnew => (hf a).weaken fun outcome more => h.go a outcome new more hnew

/-- Two sessions with exchanges of one sort have such exchanges one after the other. -/
theorem Adds.bindOnly (hx : Adds host x (Only P)) (hf : ∀ a, Adds host (f a) (Only P)) :
    Adds host (x >>= f) (Only P) :=
  Adds.chain chains_only hx hf

/-- A function on the value of a session changes nothing of what it adds. -/
theorem Adds.map {g : α → β} (hx : Adds host x fun outcome new => S (outcome.map g) new) :
    Adds host (g <$> x) S := by
  rw [map_eq_pure_bind]
  exact hx.bind (fun _ _ h => h) fun a new h => .pure (by rw [List.append_nil]; exact h)

/-- Sessions for the items of a list have exchanges of one sort when each of them has. -/
theorem Adds.mapM {items : List ι} {program : ι → Session α}
    (h : ∀ item, Adds host (program item) (Only P)) :
    Adds host (items.mapM program) (Only P) := by
  induction items with
  | nil => exact .pureOnly
  | cons item items ih =>
      rw [List.mapM_cons]
      exact (h item).bindOnly fun _ => ih.bindOnly fun _ => .pureOnly

/-- A check adds nothing, when it fails and when it does not. -/
theorem Adds.check {γ : Type} {c : Prop} [Decidable c] {failure : Failure} {g : γ → Session α}
    (hfail : c → R (.error failure) []) (h : ¬ c → Adds host x R) :
    Adds host (if c then MonadExcept.throw failure >>= g else x) R := by
  by_cases hc : c
  · rw [if_pos hc]
    exact .throw (hfail hc)
  · rw [if_neg hc]
    exact h hc

/-- A session that reads the host is known when it is known for this host. -/
theorem Adds.read {g : Host → Session α} (h : Adds host (g host) R) :
    Adds host (MonadReader.read >>= g) R where
  run := fun world => h.run world

/-- A program on files adds no exchanges. -/
theorem Adds.files {program : Storage Failure α} : Adds host (files program) (Only P) where
  run := fun _ => ⟨[], (List.append_nil _).symm, by simp [Only]⟩

/-- Looking at the outcome of a session changes nothing of what it adds. -/
theorem Adds.attempt {x : Session α} (hx : Adds host x (Only P)) :
    Adds host (attempt x) (Only P) where
  run := fun world => by
    obtain ⟨new, hnew, hP⟩ := hx.run world
    exact ⟨new, hnew, hP⟩

/-- Writing to the standard output adds no exchanges. -/
theorem Adds.writeOut {bytes : Bytes} : Adds host (writeOut bytes) (Only P) where
  run := fun _ => ⟨[], (List.append_nil _).symm, by simp [Only]⟩

/-- Writing to the standard error stream adds no exchanges. -/
theorem Adds.writeError {bytes : Bytes} : Adds host (writeError bytes) (Only P) where
  run := fun _ => ⟨[], (List.append_nil _).symm, by simp [Only]⟩

/-- Printing a line adds no exchanges. -/
theorem Adds.print {line : String} : Adds host (print line) (Only P) :=
  Adds.writeOut

/-- Starting a program adds that program and its response. -/
theorem Adds.call (directory : Option Path) (argv : List String) :
    Adds host (call directory argv) fun outcome new =>
      (∃ e, outcome = .ok (.error e) ∧ new = []) ∨
        ∃ e, new = [e] ∧ e.invocation.argv = argv ∧ outcome = .ok (.ok e.response) where
  run := fun world => by
    rw [Session.call, exec, ofExec]
    cases hprepare : Invocation.prepare host world.files directory argv with
    | error e => exact ⟨[], (List.append_nil _).symm, .inl ⟨e, rfl, rfl⟩⟩
    | ok invocation =>
        have hargv : invocation.argv = argv := by
          unfold Invocation.prepare at hprepare
          obtain ⟨_, hprepare⟩ := Run.of_check_ok hprepare
          cases directory <;> simp only at hprepare
          all_goals
            obtain ⟨_, _, hprepare⟩ := Run.of_bind_ok hprepare
            obtain ⟨_, _, hprepare⟩ := Run.of_bind_ok hprepare
            rw [← Except.ok.inj hprepare]
        exact ⟨_, rfl, .inr ⟨_, rfl, hargv, rfl⟩⟩

/-- What follows the start of a program knows that it could not be started, or what it answered. -/
theorem Adds.ofCall {directory : Option Path} {argv : List String}
    {f : Except FileError Response → Session α} {S : Except Failure α → List Exchange → Prop}
    (herror : ∀ e, Adds host (f (.error e)) S)
    (hok : ∀ e : Exchange, e.invocation.argv = argv →
      Adds host (f (.ok e.response)) fun outcome more => S outcome ([e] ++ more)) :
    Adds host (Session.call directory argv >>= f) S := by
  refine (Adds.call directory argv).bind ?_ ?_
  · rintro failure new (⟨e, houtcome, -⟩ | ⟨e, -, -, houtcome⟩) <;> simp at houtcome
  · rintro answer new (⟨e, houtcome, rfl⟩ | ⟨e, rfl, hargv, houtcome⟩)
    · obtain rfl := Except.ok.inj houtcome
      exact herror e
    · obtain rfl := Except.ok.inj houtcome
      exact hok e hargv

/-- A session that only looks at what a program answered may stand behind it. -/
theorem Adds.bindSends {argv : List String} {g : Response → Except Failure α}
    {h : α → Except Failure β} (hx : Adds host x (Sends argv g))
    (hf : ∀ a, Adds host (f a) fun outcome new => outcome = h a ∧ new = []) :
    Adds host (x >>= f) (Sends argv fun response => g response >>= h) := by
  refine hx.bind (fun failure new hsends => ?_) fun a new hsends => (hf a).weaken ?_
  · rcases hsends with ⟨_, -, hnew⟩ | ⟨e, hnew, hargv, houtcome⟩
    · exact .inl ⟨failure, rfl, hnew⟩
    · exact .inr ⟨e, hnew, hargv, by simp only [← houtcome]; rfl⟩
  · rintro outcome more ⟨rfl, rfl⟩
    rcases hsends with ⟨failure, hfailure, -⟩ | ⟨e, hnew, hargv, houtcome⟩
    · exact absurd hfailure (by simp)
    · exact .inr ⟨e, by rw [hnew, List.append_nil], hargv, by simp only [← houtcome]; rfl⟩

/-- A session that starts one program has exchanges of the sort that this program is of. -/
theorem Adds.onlyOfSends {argv : List String} {g : Response → Except Failure α}
    (hx : Adds host x (Sends argv g)) (h : ∀ e : Exchange, e.invocation.argv = argv → P e) :
    Adds host x (Only P) := by
  refine hx.weaken fun outcome new hsends e he => ?_
  rcases hsends with ⟨_, _, rfl⟩ | ⟨sent, rfl, hargv, _⟩
  · exact absurd he List.not_mem_nil
  · rw [List.mem_singleton.1 he]
    exact h sent hargv

end Rules

end Session

open Session (Adds Only Sends)

variable {P : Exchange → Prop}

/-! ## Commands -/

/-- Nothing else is started when a program cannot be started, or has answered. -/
theorem adds_of_call {directory : Option Path} {argv : List String}
    {f : Except FileError Response → Session α} {g : Response → Except Failure α}
    (herror : ∀ e, ∃ failure, f (.error e) = throw failure)
    (hok : ∀ response, Adds host (f (.ok response)) fun outcome new =>
      outcome = g response ∧ new = []) :
    Adds host (Session.call directory argv >>= f) (Sends argv g) := by
  refine .ofCall (fun e => ?_) fun e hargv => (hok e.response).weaken ?_
  · obtain ⟨failure, hfailure⟩ := herror e
    rw [hfailure]
    exact .throw (.inl ⟨failure, rfl, rfl⟩)
  · rintro outcome more ⟨rfl, rfl⟩
    exact .inr ⟨e, rfl, hargv, rfl⟩

namespace Repository

/-- Starting `git` sends one command and gives its response. -/
theorem adds_start (argv : List String) (verb : String) :
    Adds host (start argv verb) (Sends argv .ok) := by
  unfold start
  exact adds_of_call (fun e => ⟨_, rfl⟩) fun _ => .pure ⟨rfl, rfl⟩

/-- What a command gives that has to succeed. -/
def required (args : List String) (response : Response) : Except Failure Bytes :=
  if response.succeeded then .ok response.stdout
  else .error (.repository (.commandFailed ("git " ++ " ".intercalate args)
    (String.ofList (Text.trimEnd (Text.Utf8.decodeLossy response.stderr))) response.ending))

/-- A command that has to succeed is sent once, and its response decides how it ends. -/
theorem adds_run (repository : Repository) (args : List String) :
    Adds host (repository.run args) (Sends (repository.settings ++ args) (required args)) := by
  unfold run
  refine Adds.bindSends (h := required args) (adds_start _ _) fun response => ?_
  unfold required
  split
  · exact .pure ⟨rfl, rfl⟩
  · exact .throw ⟨rfl, rfl⟩

/-- A question is sent once, and its answer is whether the response is a success. -/
theorem adds_succeeds (repository : Repository) (args : List String) :
    Adds host (repository.succeeds args)
      (Sends (repository.settings ++ args) fun response => .ok response.succeeded) := by
  unfold succeeds
  exact (adds_start _ _).bindSends fun _ => .pure ⟨rfl, rfl⟩

end Repository

/-! ## Commands that are given -/

section Given

variable {root : Path} {argv : List String}

/-- A call of a program has exchanges of the sort that this program is of. -/
theorem adds_given (directory : Option Path) (h : ∀ e : Exchange, e.invocation.argv = argv → P e) :
    Adds host (Session.call directory argv) (Only P) := by
  refine (Adds.call directory argv).weaken fun outcome new hcall e he => ?_
  rcases hcall with ⟨_, _, rfl⟩ | ⟨called, rfl, hargv, _⟩
  · exact absurd he List.not_mem_nil
  · rw [List.mem_singleton.1 he]
    exact h called hargv

/-- Starting a configured command has exchanges of the sort that this command is of. -/
theorem Command.adds_start (h : ∀ e : Exchange, e.invocation.argv = argv → P e) :
    Adds host (Command.start root argv) (Only P) := by
  unfold Command.start
  refine Adds.check (fun _ => by simp [Only]) fun _ => (adds_given _ h).bindOnly fun answer => ?_
  cases answer
  · exact .throwOnly
  · exact .pureOnly

/-- Checking a response adds no exchanges. -/
theorem Command.adds_check (response : Response) :
    Adds host (Command.check argv response) (Only P) := by
  unfold Command.check
  split
  · exact .pureOnly
  · exact .throwOnly

/-- Running a configured command has exchanges of the sort that this command is of. -/
theorem Command.adds_run (h : ∀ e : Exchange, e.invocation.argv = argv → P e) :
    Adds host (Command.run root argv) (Only P) := by
  unfold Command.run
  refine (Command.adds_start h).bindOnly fun response => ?_
  refine Adds.writeOut.bindOnly fun _ => Adds.writeError.bindOnly fun _ => ?_
  exact Command.adds_check response

/-- Running a configured command for its output has exchanges of the sort that this command is of. -/
theorem Command.adds_capture (h : ∀ e : Exchange, e.invocation.argv = argv → P e) :
    Adds host (Command.capture root argv) (Only P) := by
  unfold Command.capture
  refine (Command.adds_start h).bindOnly fun response => ?_
  refine Adds.writeError.bindOnly fun _ => (Command.adds_check response).bindOnly fun _ => ?_
  exact .pureOnly

/-- Building has exchanges of the sort that the builder with its words and the archive is of. -/
theorem Builder.adds_build {builder : BuilderSection} {archive : Path}
    (h : ∀ e : Exchange, e.invocation.argv = Builder.argv builder archive → P e) :
    Adds host (Builder.build builder archive) (Only P) := by
  unfold Builder.build
  refine Adds.files.bindOnly fun found => ?_
  split
  · exact .throwOnly
  · refine (adds_given _ h).bindOnly fun answer => ?_
    cases answer with
    | error e => exact .throwOnly
    | ok response =>
        refine Adds.writeOut.bindOnly fun _ => Adds.writeError.bindOnly fun _ => ?_
        split
        · exact .throwOnly
        · exact .pureOnly

end Given

end RpmRelease
