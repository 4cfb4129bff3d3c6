import RpmRelease.Proofs.Execution.History

/-!
# What sessions add to a history

A `Triple` is about a session that is run where a history of successful steps explains the world.
When the session succeeds, it has added steps that succeeded and were taken in order; when it fails,
the last of its steps failed, with the same failure, and nothing was done afterwards.  The rules
follow the ways in which sessions are put together.
-/

set_option autoImplicit false

namespace RpmRelease.Execution

/-! ## Triples -/

/-- A history of steps that all succeeded explains a world. -/
structure Sound (host : Host) (r : Release) (origin : World) (history : List Event)
    (world : World) : Prop where
  explains : Explains host r origin history world
  ordered : Ordered host r history
  succeeded : ∀ e ∈ history, e.Succeeded host r

/-- A history explains a failure: its last step failed with it, and all others succeeded. -/
def ExplainsFailure (host : Host) (r : Release) (origin : World) (failure : Failure)
    (world : World) : Prop :=
  ∃ history last, Sound host r origin history last.before ∧ Requires host r history last ∧
    last.outcome host r = .error failure ∧ last.after host r = world

/-- A condition on a history and the files that it left. -/
abbrev Condition : Type := List Event → FileSystem → Prop

/-- Where the first condition holds, a session that succeeds adds steps after which the second one
holds, and a session that fails adds steps of which the last one failed. -/
structure Triple {α : Type} (host : Host) (r : Release) (P : Condition) (x : Session α)
    (Q : α → Condition) : Prop where
  run : ∀ origin history world, Sound host r origin history world → P history world.files →
    match x.exec host world with
    | (.ok a, world') => ∃ history', Sound host r origin history' world' ∧ Q a history' world'.files
    | (.error failure, world') => ExplainsFailure host r origin failure world'

/-! ## Rules -/

section Rules

variable {α β : Type} {host : Host} {r : Release} {P P' : Condition}

/-- Returning a value takes no steps. -/
theorem Triple.pure {a : α} {Q : α → Condition} (h : ∀ history files, P history files → Q a history files) :
    Triple host r P (pure a) Q where
  run := fun _ history world hsound hP => ⟨history, hsound, h history world.files hP⟩

/-- One session after the other, where what holds behind the first is what the second asks for. -/
theorem Triple.bind {x : Session α} {f : α → Session β} {Q : α → Condition} {R : β → Condition}
    (hx : Triple host r P x Q) (hf : ∀ a, Triple host r (Q a) (f a) R) :
    Triple host r P (x >>= f) R := by
  refine ⟨fun origin history world hsound hP => ?_⟩
  have hfirst := hx.run origin history world hsound hP
  rw [Session.exec_bind]
  rcases hrun : x.exec host world with ⟨failure | a, world'⟩
  · rw [hrun] at hfirst
    exact hfirst
  · rw [hrun] at hfirst
    obtain ⟨history', hsound', hQ⟩ := hfirst
    exact (hf a).run origin history' world' hsound' hQ

/-- A function on the value of a session changes nothing of its steps. -/
theorem Triple.map {x : Session α} {f : α → β} {Q : β → Condition}
    (h : Triple host r P x fun a => Q (f a)) : Triple host r P (f <$> x) Q := by
  rw [map_eq_pure_bind]
  exact Triple.bind h fun _ => Triple.pure fun _ _ hQ => hQ

/-- A condition before may be stronger, and one after may be weaker. -/
theorem Triple.weaken {x : Session α} {Q Q' : α → Condition} (h : Triple host r P x Q)
    (hP : ∀ history files, P' history files → P history files)
    (hQ : ∀ a history files, Q a history files → Q' a history files) : Triple host r P' x Q' := by
  refine ⟨fun origin history world hsound hP' => ?_⟩
  have hrun := h.run origin history world hsound (hP _ _ hP')
  rcases hexec : x.exec host world with ⟨failure | a, world'⟩
  · rw [hexec] at hrun
    exact hrun
  · rw [hexec] at hrun
    obtain ⟨history', hsound', hpost⟩ := hrun
    exact ⟨history', hsound', hQ a _ _ hpost⟩

/-- Of two facts behind a session the first one may be kept. -/
theorem Triple.left {x : Session α} {Q S : α → Condition}
    (h : Triple host r P x fun a history files => Q a history files ∧ S a history files) :
    Triple host r P x Q :=
  h.weaken (fun _ _ hP => hP) fun _ _ _ hboth => hboth.1

/-- A session that only looks or prints adds nothing. -/
theorem Triple.quiet {x : Session α} {V : α → FileSystem → Prop}
    (hquiet : ∀ world, ∃ a world', x.exec host world = (.ok a, world') ∧
      world'.files = world.files ∧ world'.exchanges = world.exchanges ∧ V a world.files) :
    Triple host r P x fun a history files => P history files ∧ V a files := by
  refine ⟨fun origin history world hsound hP => ?_⟩
  obtain ⟨a, world', hexec, hfiles, hexchanges, hV⟩ := hquiet world
  rw [hexec]
  refine ⟨history, ⟨hsound.explains.print hfiles hexchanges, hsound.ordered, hsound.succeeded⟩, ?_⟩
  rw [hfiles]
  exact ⟨hP, hV⟩

/-- Printing takes no steps. -/
theorem Triple.print (line : String) :
    Triple host r P (Session.print line) fun _ => P := by
  refine Triple.left (Triple.quiet (V := fun _ _ => True) fun world => ?_)
  exact ⟨(), { world with stdout := world.stdout ++ Text.Utf8.ofString (line ++ "\n") },
    rfl, rfl, rfl, trivial⟩

/-- Asking whether there is a directory takes no step. -/
theorem Triple.isDirectory (path : Path) : Triple host r P (Session.isDirectory path) fun _ => P :=
  Triple.left (Triple.quiet (V := fun _ _ => True) fun world =>
    ⟨world.files.isDirectory host.caller path, world, rfl, rfl, rfl, trivial⟩)

/-- Asking whether there is a file takes no step, and the answer is that of the files. -/
theorem Triple.isFile (path : Path) : Triple host r P (Session.isFile path) fun there history files =>
    P history files ∧ there = files.isFile host.caller path :=
  Triple.quiet fun world => ⟨world.files.isFile host.caller path, world, rfl, rfl, rfl, rfl⟩

/-- A session that reads the host is known when it is known for this host. -/
theorem Triple.read {f : Host → Session α} {Q : α → Condition} (h : Triple host r P (f host) Q) :
    Triple host r P (MonadReader.read >>= f) Q where
  run := fun origin history world hsound hP => h.run origin history world hsound hP

/-- A session that takes a step adds that step. -/
theorem Triple.step {x : Session α} {f : α → Answer} {Q : α → Condition} (s : Step)
    (hs : s.session host r = f <$> x)
    (hrequires : ∀ history world, P history world.files → Requires host r history ⟨s, world⟩)
    (hQ : ∀ history world a world', P history world.files → x.exec host world = (.ok a, world') →
      Q a (history ++ [⟨s, world⟩]) world'.files) : Triple host r P x Q := by
  refine ⟨fun origin history world hsound hP => ?_⟩
  have hrun : (s.session host r).exec host world =
      ((x.exec host world).1.map f, (x.exec host world).2) := by
    rw [hs, Session.exec_map]
  have hafter : Event.after host r ⟨s, world⟩ = (x.exec host world).2 := congrArg Prod.snd hrun
  have houtcome : Event.outcome host r ⟨s, world⟩ = (x.exec host world).1.map f :=
    congrArg Prod.fst hrun
  rcases hexec : x.exec host world with ⟨failure | a, world'⟩
  · rw [hexec] at hafter houtcome
    exact ⟨history, ⟨s, world⟩, hsound, hrequires history world hP, houtcome, hafter⟩
  · rw [hexec] at hafter houtcome
    refine ⟨history ++ [⟨s, world⟩], ⟨?_, ?_, ?_⟩, hQ history world a world' hP hexec⟩
    · have hworld : Event.after host r ⟨s, world⟩ = world' := hafter
      rw [← hworld]
      exact hsound.explains.step s
    · exact hsound.ordered.concat (hrequires history world hP)
    · intro e he
      rcases List.mem_append.1 he with he | he
      · exact hsound.succeeded e he
      · obtain rfl := List.mem_singleton.1 he
        exact ⟨f a, houtcome⟩

/-- Failing takes no steps. -/
theorem Triple.throw {Q : α → Condition} (failure : Failure) :
    Triple host r P (throw failure) Q := by
  refine ⟨fun origin history world hsound _ => ?_⟩
  exact ⟨history, ⟨.refuse failure, world⟩, hsound, trivial, rfl, rfl⟩

/-- Where nothing holds, everything is known of a session. -/
theorem Triple.of_false {x : Session α} {Q : α → Condition} :
    Triple host r (fun _ _ => False) x Q where
  run := fun _ _ _ _ hfalse => hfalse.elim

/-- What is needed may be taken from what holds in front. -/
theorem Triple.assume {c : Prop} {x : Session α} {Q : α → Condition}
    (h : c → Triple host r P x Q) : Triple host r (fun history files => c ∧ P history files) x Q where
  run := fun origin history world hsound hP => (h hP.1).run origin history world hsound hP.2

/-- A check takes no steps, and what is behind it may rely on it. -/
theorem Triple.check {γ : Type} {c : Prop} [Decidable c] {failure : Failure} {f : γ → Session α}
    {x : Session α} {Q : α → Condition} (h : ¬ c → Triple host r P x Q) :
    Triple host r P (if c then MonadExcept.throw failure >>= f else x) Q := by
  by_cases hc : c
  · rw [if_pos hc]
    exact Triple.bind (Triple.throw failure) fun _ => Triple.of_false
  · rw [if_neg hc]
    exact h hc

/-- What every item of a list keeps is kept by the whole list. -/
theorem Triple.mapM {ι : Type} {f : ι → Session α} {items : List ι}
    (h : ∀ item ∈ items, Triple host r P (f item) fun _ => P) :
    Triple host r P (items.mapM f) fun _ => P := by
  induction items with
  | nil =>
      rw [List.mapM_nil]
      exact Triple.pure fun _ _ hP => hP
  | cons item items ih =>
      rw [List.mapM_cons]
      have hrest := ih fun other hother => h other (List.mem_cons_of_mem item hother)
      exact Triple.bind (h item List.mem_cons_self) fun _ => Triple.bind hrest fun _ =>
        Triple.pure fun _ _ hP => hP

/-! ## Facts that last -/

/-- A fact about a history that no later step undoes. -/
def Lasting (R : List Event → Prop) : Prop :=
  ∀ history more, R history → R (history ++ more)

/-- A step that was done stays done. -/
theorem lasting_did (s : Step) (answer : Answer) :
    Lasting fun history => Did host r history s answer :=
  fun _ more h => h.append more

/-- Two lasting facts together are one. -/
theorem Lasting.and {R S : List Event → Prop} (hR : Lasting R) (hS : Lasting S) :
    Lasting fun history => R history ∧ S history :=
  fun history more h => ⟨hR history more h.1, hS history more h.2⟩

/-- Either of two lasting facts is one. -/
theorem Lasting.or {R S : List Event → Prop} (hR : Lasting R) (hS : Lasting S) :
    Lasting fun history => R history ∨ S history :=
  fun history more h => h.imp (hR history more) (hS history more)

/-- A lasting fact about something is one when it is not said about what. -/
theorem Lasting.exists {ι : Type} {R : ι → List Event → Prop} (hR : ∀ i, Lasting (R i)) :
    Lasting fun history => ∃ i, R i history :=
  fun history more ⟨i, h⟩ => ⟨i, hR i history more h⟩

/-- A lasting fact still lasts together with a step that was done. -/
theorem Lasting.did {R : List Event → Prop} (hR : Lasting R) (host : Host) (r : Release) (s : Step)
    (answer : Answer) : Lasting fun history => R history ∧ Did host r history s answer :=
  hR.and (lasting_did s answer)

/-- No step undoes that the changelog was written. -/
theorem lasting_wroteChangelog : Lasting (WroteChangelog host r) :=
  Lasting.exists fun _ => lasting_did _ _

/-- No step undoes that the changelog was committed. -/
theorem lasting_committedChangelog : Lasting (CommittedChangelog host r) :=
  (Lasting.exists fun _ => lasting_did _ _).and
    ((lasting_did _ _).or (Lasting.exists fun _ => Lasting.exists fun _ => lasting_did _ _))

/-- No step undoes that all changes were committed. -/
theorem lasting_committedChanges : Lasting (CommittedChanges host r) :=
  (lasting_did _ _).or ((Lasting.exists fun _ => lasting_did _ _).and
    (Lasting.exists fun _ => lasting_did _ _))

/-- No step undoes that the release was tagged. -/
theorem lasting_tagged : Lasting (Tagged host r) :=
  Lasting.exists fun _ => Lasting.exists fun _ => lasting_did _ _

/-- No step undoes that the export was unpacked. -/
theorem lasting_unpacked : Lasting (Unpacked host r) :=
  Lasting.exists fun _ => lasting_did _ _

/-- A session that succeeds is a step that was done, with what it answers. -/
theorem did_concat {x : Session α} {f : α → Answer} {s : Step} (hs : s.session host r = f <$> x)
    (history : List Event) {world world' : World} {a : α}
    (hexec : x.exec host world = (.ok a, world')) :
    Did host r (history ++ [⟨s, world⟩]) s (f a) := by
  have hrun : (s.session host r).exec host world = (.ok (f a), world') := by
    rw [hs, Session.exec_map, hexec]
    rfl
  exact ⟨⟨s, world⟩, by simp, rfl, congrArg Prod.fst hrun⟩

/-- What was done before a step stays done, and the step is done, too. -/
theorem Triple.did {x : Session α} {f : α → Answer} {R : List Event → Prop} (hR : Lasting R)
    (s : Step) (hs : s.session host r = f <$> x)
    (hrequires : ∀ history world, R history → Requires host r history ⟨s, world⟩) :
    Triple host r (fun history _ => R history) x
      fun a history _ => R history ∧ Did host r history s (f a) := by
  refine Triple.step s hs (fun history world => hrequires history world) ?_
  intro history world a world' hhistory hexec
  exact ⟨hR history _ hhistory, did_concat hs history hexec⟩

end Rules

end RpmRelease.Execution
