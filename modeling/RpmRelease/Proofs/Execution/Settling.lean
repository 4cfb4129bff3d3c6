import RpmRelease.Proofs.Calendar
import RpmRelease.Proofs.Changelog
import RpmRelease.Proofs.Commit
import RpmRelease.Proofs.Execution.Regenerating

/-!
# A changelog settles

A regenerated changelog is committed, and its commit becomes part of the history.  The log form of
that commit is read back with the message it was given, whatever blank lines stand around it, and by
that message it is left out.  So the changelog of a history is that of any history in which such
commits were put between the others, however many, and making it anew after them writes the same
bytes.
-/

set_option autoImplicit false

namespace RpmRelease

namespace Changelog

open Commit (logForm)

/-! ## One commit -/

/-- The message of a recorded changelog begins with the marker and says the day. -/
theorem toList_commitMessage (today : Date) :
    (commitMessage today).toList = marker.toList ++ (" on ".toList ++ today.render.toList) := by
  rw [commitMessage, String.toList_append, String.toList_append, List.append_assoc]

/-- The message of a recorded changelog begins with a letter. -/
theorem head?_commitMessage (today : Date) (rest : List Char) :
    ((commitMessage today).toList ++ rest).head? = some 'G' := by
  rw [toList_commitMessage]
  rfl

/-- No character of a message ends a line. -/
theorem isLine_commitMessage (today : Date) :
    '\n' ∉ (commitMessage today).toList ∧ '\r' ∉ (commitMessage today).toList := by
  have hdate (c : Char) (hc : Text.isBlank c = true) : c ∉ today.render.toList := fun hmem =>
    absurd ((Date.render_spec today).2 c hmem) (by simp [hc])
  simp only [toList_commitMessage, List.mem_append, not_or]
  refine ⟨⟨by decide, by decide, hdate _ (by decide)⟩, ⟨by decide, by decide, hdate _ (by decide)⟩⟩

/-- A message neither begins nor ends with a blank. -/
theorem trim_commitMessage (today : Date) :
    Text.trim (commitMessage today).toList = (commitMessage today).toList := by
  obtain ⟨hne, hdate⟩ := Date.render_spec today
  apply Text.trim_eq_self_of_ends
  · have hhead := head?_commitMessage today []
    rw [List.append_nil] at hhead
    intro c hc
    rw [hhead, Option.mem_def, Option.some.injEq] at hc
    rw [← hc]
    decide
  · intro c hc
    rw [toList_commitMessage, ← List.append_assoc, Option.mem_def,
      List.getLast?_append_of_ne_nil _ hne] at hc
    exact hdate c (List.mem_of_getLast? hc)

/-- A message is what is left of it with blanks around it, however its lines end. -/
theorem trim_joinLines_commitMessage (today : Date) {front back : List Char}
    (hfront : ∀ c ∈ front, Text.isBlank c = true) (hback : ∀ c ∈ back, Text.isBlank c = true) :
    Text.trim (Text.joinLines (Text.lines (front ++ (commitMessage today).toList ++ back))) =
      (commitMessage today).toList := by
  have hhead : ((commitMessage today).toList ++ back).head? ≠ some '\n' := by
    rw [head?_commitMessage]
    decide
  have hreturn := (isLine_commitMessage today).2
  rw [Text.trim_joinLines_lines, List.append_assoc, Text.unifyEndings_append hhead,
    Text.unifyEndings_of_not_mem back hreturn, ← List.append_assoc,
    Text.trim_append_of_blank, trim_commitMessage]
  · exact fun c hc => hfront c (Text.mem_of_mem_unifyEndings hc)
  · exact fun c hc => hback c (Text.mem_of_mem_unifyEndings hc)

/-- A commit with such a message is left out. -/
theorem isGenerated_commitMessage {c : Commit} {today : Date} (h : c.message = commitMessage today) :
    isGenerated c = true := by
  have hne : (commitMessage today).toList.isEmpty = false := by
    rw [toList_commitMessage]
    rfl
  have hsummary : c.summary.toList = (commitMessage today).toList := by
    rw [Commit.summary, h, Text.lines_of_not_mem (isLine_commitMessage today).1, hne,
      String.toList_ofList]
    rfl
  rw [isGenerated, hsummary, toList_commitMessage, List.isPrefixOf_iff_prefix]
  exact List.prefix_append _ _

/-- The log of a commit with which a changelog was recorded: the message with blanks around it. -/
inductive IsRecord : Bytes → Prop
  | mk (author email : String) (timestamp : Int) (today : Date) (front back : String)
    (hauthor : '\n' ∉ author.toList) (hemail : '\n' ∉ email.toList)
    (hlow : -2 ^ 63 ≤ timestamp) (hhigh : timestamp < 2 ^ 63)
    (hfront : ∀ c ∈ front.toList, Text.isBlank c = true)
    (hback : ∀ c ∈ back.toList, Text.isBlank c = true) :
    IsRecord (logForm author email timestamp (front ++ commitMessage today ++ back))

/-- Such a log is read, with the message as it was before the blanks. -/
theorem ofLog_record {author email front back : String} {timestamp : Int} (today : Date)
    (hauthor : '\n' ∉ author.toList) (hemail : '\n' ∉ email.toList)
    (hlow : -2 ^ 63 ≤ timestamp) (hhigh : timestamp < 2 ^ 63)
    (hfront : ∀ c ∈ front.toList, Text.isBlank c = true)
    (hback : ∀ c ∈ back.toList, Text.isBlank c = true) :
    Commit.ofLog (logForm author email timestamp (front ++ commitMessage today ++ back)) = .ok {
      author := String.ofList (Text.dropReturn author.toList)
      email := String.ofList (Text.dropReturn email.toList)
      timestamp
      message := commitMessage today } := by
  rw [Commit.ofLog_logForm _ hauthor hemail hlow hhigh, String.toList_append, String.toList_append,
    trim_joinLines_commitMessage today hfront hback, String.ofList_toList]

/-- The log of a recorded changelog is that of a generated commit. -/
theorem exists_of_isRecord {log : Bytes} (h : IsRecord log) :
    ∃ c, Commit.ofLog log = .ok c ∧ isGenerated c = true := by
  cases h with
  | mk author email timestamp today front back hauthor hemail hlow hhigh hfront hback =>
    exact ⟨_, ofLog_record today hauthor hemail hlow hhigh hfront hback, isGenerated_commitMessage rfl⟩

/-! ## Any number of commits -/

/-- Whether a list is another one with elements of a class put between and around its own. -/
inductive Interspersed {α : Type} (P : α → Prop) : List α → List α → Prop
  | nil : Interspersed P [] []
  | keep (x : α) {xs ys : List α} : Interspersed P xs ys → Interspersed P (x :: xs) (x :: ys)
  | insert {x : α} (h : P x) {xs ys : List α} : Interspersed P xs ys → Interspersed P xs (x :: ys)

/-- Equal lists of listed commits make equal changelogs. -/
theorem render_eq_of_listed {history other : List Commit} (h : listed other = listed history) :
    render other = render history := by
  simp only [listed] at h
  rw [render, h, render]

/-- A generated commit does not matter to the changelog, wherever it stands. -/
theorem render_insert {c : Commit} (h : isGenerated c = true) (before after : List Commit) :
    render (before ++ c :: after) = render (before ++ after) := by
  apply render_eq_of_listed
  simp [listed, h]

/-- Where the history could be read before, it can be read again, and the same commits are listed. -/
theorem exists_listed_of_interspersed {logs more : List Bytes} {history : List Commit}
    (h : Interspersed IsRecord logs more)
    (hread : List.Forall₂ (fun log c => Commit.ofLog log = .ok c) logs history) :
    ∃ longer, List.Forall₂ (fun log c => Commit.ofLog log = .ok c) more longer ∧
      listed longer = listed history := by
  induction h generalizing history with
  | nil =>
    cases hread
    exact ⟨[], .nil, rfl⟩
  | keep log _ ih =>
    cases hread with
    | cons hlog hrest =>
      obtain ⟨longer, hlonger, hlisted⟩ := ih hrest
      refine ⟨_, .cons hlog hlonger, ?_⟩
      simp only [listed] at hlisted
      simp only [listed, List.filter_cons, hlisted]
  | insert hrecord _ ih =>
    obtain ⟨longer, hlonger, hlisted⟩ := ih hread
    obtain ⟨c, hc, hgenerated⟩ := exists_of_isRecord hrecord
    refine ⟨c :: longer, .cons hc hlonger, ?_⟩
    rw [← hlisted]
    simp [listed, hgenerated]

end Changelog

/-! ## Runs -/

namespace Repository

/-- Whether an exchange asks for the log of a commit. -/
def asksLog (repository : Repository) (e : Exchange) : Bool :=
  (repository.settings ++ ["log"]).isPrefixOf e.invocation.argv

/-- The logs that were told between two worlds, one after the other. -/
def logsBetween (repository : Repository) (before after : World) : List Bytes :=
  ((after.exchanges.drop before.exchanges.length).filter repository.asksLog).map (·.response.stdout)

/-- An exchange asks for a log when its command is `log`. -/
theorem asksLog_eq (repository : Repository) {e : Exchange} {command : String} {args : List String}
    (h : e.invocation.argv = repository.settings ++ command :: args) :
    repository.asksLog e = (command == "log") := by
  rw [asksLog, h, Bool.eq_iff_iff, List.isPrefixOf_iff_prefix, List.prefix_append_right_inj,
    List.cons_prefix_cons, beq_iff_eq, eq_comm]
  exact and_iff_left List.nil_prefix

/-- Committing a file asks for no log. -/
theorem filter_commits {repository : Repository} {path : Path} {message : String} {committed : Bool}
    {new : List Exchange} (h : repository.Commits path message (.ok committed) new) :
    new.filter repository.asksLog = [] := by
  rw [List.filter_eq_nil_iff]
  cases h with
  | unchanged hadded hcompared =>
    simp [repository.asksLog_eq hadded.1, repository.asksLog_eq hcompared.1]
  | committed hadded hcompared _ hcommitted =>
    simp [repository.asksLog_eq hadded.1, repository.asksLog_eq hcompared,
      repository.asksLog_eq hcommitted.1]

end Repository

namespace Recording

/-- In a run the document is written: at first files are changed by other programs only, then there
are directories for it, then it is written and committed. -/
def Writes (r : Release) (repository : Repository) (host : Host) (world : World)
    (content : Bytes) : Prop :=
  ∃ fetched files, Driven host world fetched ∧ fetched.files.Within files ∧
    Delivered r repository host { fetched with files } content
      ((regenerateChangelog r repository).exec host world)

/-- The logs that are told in a run. -/
def logsTold (r : Release) (repository : Repository) (host : Host) (world : World) : List Bytes :=
  repository.logsBetween world ((regenerateChangelog r repository).exec host world).2

/-- Without a configured command, a run that succeeds writes the changelog of the commits whose logs
it is told. -/
theorem exists_history_of_regenerateChangelog {r : Release} {repository : Repository} {host : Host}
    {world : World} {outcome : ChangelogOutcome}
    (hcommand : r.configuration.versionControl.changelogCommand = [])
    (h : ((regenerateChangelog r repository).exec host world).1 = .ok outcome) :
    ∃ history, List.Forall₂ (fun log c => Commit.ofLog log = .ok c)
        (logsTold r repository host world) history ∧
      Writes r repository host world (Text.Utf8.ofString (Changelog.render history)) := by
  obtain ⟨content, gathered, fetched, hfetches, hexchanges, hdriven, hcourse⟩ :=
    regenerateChangelog_course r repository host world
  cases hfetches with
  | noHistory => exact absurd (h.symm.trans (congrArg Prod.fst hcourse)) (by simp)
  | notConverted => exact absurd (h.symm.trans (congrArg Prod.fst hcourse)) (by simp)
  | converted hconfigured => exact absurd hcommand hconfigured
  | @history asked listed names logs commits _ hasked hlisted _ hlogs hcommits =>
    obtain ⟨files, hwithin, ⟨e, herror⟩ | hdelivered⟩ := hcourse
    · exact absurd (h.symm.trans (congrArg Prod.fst herror)) (by simp)
    refine ⟨commits, ?_, fetched, files, hdriven, hwithin, hdelivered⟩
    -- of all exchanges of the run, those for the logs are the ones that ask for logs
    obtain ⟨-, -, answer, recorded, -, hrecorded, hanswer, hafter, -⟩ := hdelivered
    have hcommitted : ∃ committed, answer = .ok committed := by
      cases answer with
      | error failure => exact absurd (h.symm.trans hanswer) (by simp [Except.map])
      | ok committed => exact ⟨committed, rfl⟩
    obtain ⟨committed, rfl⟩ := hcommitted
    have hall : ∀ log ∈ logs, repository.asksLog log = true := by
      intro log hlog
      obtain ⟨name, -, hanswered⟩ := FileSystem.exists_of_forall₂ hlogs.flip hlog
      exact repository.asksLog_eq hanswered.1
    have hbetween : logsTold r repository host world = logs.map (·.response.stdout) := by
      have hdrop : ((regenerateChangelog r repository).exec host world).2.exchanges.drop
          world.exchanges.length = asked :: listed :: logs ++ recorded := by
        rw [hafter, hexchanges, List.append_assoc, List.drop_left]
      rw [logsTold, Repository.logsBetween, hdrop, List.filter_append, Repository.filter_commits hrecorded,
        List.append_nil, List.filter_cons, repository.asksLog_eq hasked.1, List.filter_cons,
        repository.asksLog_eq hlisted.1, List.filter_eq_self.2 hall]
      rfl
    rw [hbetween, List.forall₂_map_left_iff]
    exact hcommits

end Recording

namespace Recording

open Changelog (commitMessage isGenerated render IsRecord Interspersed)
open Commit (logForm)

/-- The commit of a changelog is read from its log, with the time and the message it was made with,
and a history has the same changelog with that commit at any place.  With any number of such commits
put into it, a history can be read as before and has the same changelog.  So two runs write the same
document when the second one is told the logs of the first with such commits among them. -/
theorem changelog_settles :
    (∀ (author email front back : String) (timestamp : Int) (today : Date),
      '\n' ∉ author.toList → '\n' ∉ email.toList → -2 ^ 63 ≤ timestamp → timestamp < 2 ^ 63 →
      (∀ c ∈ front.toList, Text.isBlank c = true) → (∀ c ∈ back.toList, Text.isBlank c = true) →
      ∃ commit, Commit.ofLog (logForm author email timestamp (front ++ commitMessage today ++ back)) =
          .ok commit ∧
        commit.author.toList = Text.dropReturn author.toList ∧
        commit.email.toList = Text.dropReturn email.toList ∧
        commit.timestamp = timestamp ∧ commit.message = commitMessage today ∧
        isGenerated commit = true ∧
        ∀ before after, render (before ++ commit :: after) = render (before ++ after)) ∧
    (∀ (logs more : List Bytes) (history : List Commit), Interspersed IsRecord logs more →
      List.Forall₂ (fun log c => Commit.ofLog log = .ok c) logs history →
      ∃ longer, List.Forall₂ (fun log c => Commit.ofLog log = .ok c) more longer ∧
        render longer = render history) ∧
    ∀ (r r' : Release) (repository repository' : Repository) (host host' : Host)
      (world world' : World) (outcome outcome' : ChangelogOutcome),
      r.configuration.versionControl.changelogCommand = [] →
      r'.configuration.versionControl.changelogCommand = [] →
      ((regenerateChangelog r repository).exec host world).1 = .ok outcome →
      ((regenerateChangelog r' repository').exec host' world').1 = .ok outcome' →
      Interspersed IsRecord (logsTold r repository host world)
        (logsTold r' repository' host' world') →
      ∃ bytes, Writes r repository host world bytes ∧ Writes r' repository' host' world' bytes := by
  refine ⟨?_, ?_, ?_⟩
  · intro author email front back timestamp today hauthor hemail hlow hhigh hfront hback
    refine ⟨_, Changelog.ofLog_record today hauthor hemail hlow hhigh hfront hback,
      String.toList_ofList, String.toList_ofList, rfl, rfl, ?_, ?_⟩
    · exact Changelog.isGenerated_commitMessage rfl
    · exact Changelog.render_insert (Changelog.isGenerated_commitMessage rfl)
  · intro logs more history hmore hread
    obtain ⟨longer, hlonger, hlisted⟩ := Changelog.exists_listed_of_interspersed hmore hread
    exact ⟨longer, hlonger, Changelog.render_eq_of_listed hlisted⟩
  · intro r r' repository repository' host host' world world' outcome outcome' hcommand hcommand' hrun
      hrun' hmore
    obtain ⟨history, hread, hwrites⟩ := exists_history_of_regenerateChangelog hcommand hrun
    obtain ⟨longer, hlonger, hwrites'⟩ := exists_history_of_regenerateChangelog hcommand' hrun'
    obtain ⟨longer', hlonger', hlisted⟩ := Changelog.exists_listed_of_interspersed hmore hread
    -- the logs of the second run are read in one way only
    have hsame : longer' = longer := by
      refine List.right_unique_forall₂' (fun log c c' hc hc' => ?_) hlonger' hlonger
      exact Except.ok.inj (hc.symm.trans hc')
    rw [hsame] at hlisted
    rw [Changelog.render_eq_of_listed hlisted] at hwrites'
    exact ⟨_, hwrites, hwrites'⟩

/-- A host on which `git` tells of commits, newest first. -/
def telling (logs : List (String × Bytes)) : Host where
  caller := .superuserAtRoot
  programs := ⟨fun name => name == "git", fun _ invocation _ files =>
    (⟨some 0, match invocation.argv.drop 7 with
      | "rev-list" :: _ => Text.Utf8.ofString ("\n".intercalate (logs.map (·.1)))
      | "log" :: args => (logs.lookup (args.getLastD "")).getD []
      | _ => [], []⟩, files)⟩
  codec := ⟨id, some⟩
  environment := fun _ => none
  today := ⟨1970, 1, 1⟩

/-- A project with nothing in it. -/
def emptyProject : World :=
  { files := .ofNodes [(["r"], .directory Mode.directory 0)] }

/-- A history of one commit. -/
def fixed : List (String × Bytes) :=
  [("a", logForm "Ann" "ann@example.com" 0 "Fix\n")]

/-- The same history after its changelog was committed. -/
def fixedAndRecorded : List (String × Bytes) :=
  ("b", logForm "Ann" "ann@example.com" 0 ("" ++ commitMessage ⟨1970, 1, 1⟩ ++ "\n")) :: fixed

/-- After the changelog of one commit was committed, a run writes the same document. -/
theorem changelog_settles_recorded :
    ∃ bytes, Writes .first ⟨⟨"/r"⟩⟩ (telling fixed) emptyProject bytes ∧
      Writes .first ⟨⟨"/r"⟩⟩ (telling fixedAndRecorded) emptyProject bytes := by
  have hfirst : ((regenerateChangelog .first ⟨⟨"/r"⟩⟩).exec (telling fixed) emptyProject).1 =
      .ok ⟨⟨"/r/ChangeLog"⟩, false⟩ := by
    decide +kernel
  have hsecond : ((regenerateChangelog .first ⟨⟨"/r"⟩⟩).exec (telling fixedAndRecorded)
      emptyProject).1 = .ok ⟨⟨"/r/ChangeLog"⟩, false⟩ := by
    decide +kernel
  have htold : logsTold .first ⟨⟨"/r"⟩⟩ (telling fixed) emptyProject = fixed.map (·.2) := by
    decide +kernel
  have htoldMore : logsTold .first ⟨⟨"/r"⟩⟩ (telling fixedAndRecorded) emptyProject =
      fixedAndRecorded.map (·.2) := by
    decide +kernel
  refine changelog_settles.2.2 .first .first _ _ _ _ _ _ _ _ rfl rfl hfirst hsecond ?_
  rw [htold, htoldMore]
  have hblank : ∀ c ∈ "\n".toList, Text.isBlank c = true := by
    intro c hc
    rw [List.mem_singleton.1 hc]
    decide
  exact .insert (.mk _ _ _ _ "" "\n" (by decide) (by decide) (by decide) (by decide) (by simp) hblank)
    (.keep _ .nil)

end Recording

end RpmRelease
