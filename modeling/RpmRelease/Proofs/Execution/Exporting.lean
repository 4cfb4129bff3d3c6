import RpmRelease.Proofs.Execution.Refusal
import RpmRelease.Proofs.Tar.Stream
import RpmRelease.Proofs.Tar.Unpacking

/-!
# Exporting a tag

An export unpacks the members of an archive one after the other, each of them in the files that the one
before it left, and counts them.  What a member wrote is there in the end, unless a later member has been
written to the same place.

The count is that of the members, not of those that were written: a member whose name leads upwards, or
comes to nothing, is passed over and counted.
-/

set_option autoImplicit false

namespace RpmRelease

open FileSystem (Furnished)
open Tar (Member)

variable {caller : Caller} {fs fs' : FileSystem} {destination : Path}

namespace Tar

/-! ## One member after the other -/

/-- The turn of a member: the files before it was unpacked, and after. -/
structure Turn where
  member : Member
  before : FileSystem
  after : FileSystem

namespace Turn

/-- In its turn a member has been written, as a node at a location below the destination. -/
def Wrote (t : Turn) (caller : Caller) (destination : Path) (l : Location) (node : Node) : Prop :=
  ∃ middle, t.member.Writes caller destination t.before middle t.after l node

/-- In its turn a member has been passed over: nothing has changed, except that a remark may have left
directories that were missing. -/
structure PassedOver (t : Turn) (caller : Caller) : Prop where
  furnished : Furnished caller t.before t.after
  unchanged : t.member.role ≠ .remark → t.after = t.before

end Turn

/-- Members have had their turns, the first one first. -/
inductive Turns (caller : Caller) (destination : Path) :
    FileSystem → List Turn → FileSystem → Prop
  | nil {fs : FileSystem} : Turns caller destination fs [] fs
  | wrote {t : Turn} {rest : List Turn} {fs' : FileSystem} {l : Location} {node : Node}
    (hlands : t.member.Lands) (hwrote : t.Wrote caller destination l node)
    (hrest : Turns caller destination t.after rest fs') :
    Turns caller destination t.before (t :: rest) fs'
  | passed {t : Turn} {rest : List Turn} {fs' : FileSystem}
    (hlands : ¬ t.member.Lands) (hpassed : t.PassedOver caller)
    (hrest : Turns caller destination t.after rest fs') :
    Turns caller destination t.before (t :: rest) fs'

end Tar

open Tar (Turn Turns)

/-- Unpacking all members successfully gives each of them its turn. -/
theorem exists_turns_of_forM {ε : Type} {f : FileError → ε} {members : List Member}
    (wf : fs.WellFormed)
    (h : (members.forM fun m => (m.unpack destination).mapError f).exec caller fs = (.ok (), fs')) :
    ∃ turns, turns.map Turn.member = members ∧ Turns caller destination fs turns fs' := by
  induction members generalizing fs with
  | nil =>
      obtain ⟨-, rfl⟩ := Run.ok_inj h
      exact ⟨[], rfl, .nil⟩
  | cons m members ih =>
      obtain ⟨_, middle, hm, hrest⟩ := Storage.of_exec_bind_ok h
      have hunpack := Storage.of_exec_mapError_ok hm
      by_cases hlands : m.Lands
      · obtain ⟨between, l, node, hwrites⟩ := Member.writes_of_unpack wf hlands hunpack
        obtain ⟨turns, hmembers, hturns⟩ := ih hwrites.wellFormed hrest
        exact ⟨⟨m, fs, middle⟩ :: turns, by rw [List.map_cons, hmembers],
          .wrote (t := ⟨m, fs, middle⟩) hlands ⟨between, hwrites⟩ hturns⟩
      · obtain ⟨hfurnished, hsame⟩ := Member.passes_of_unpack wf hlands hunpack
        obtain ⟨turns, hmembers, hturns⟩ := ih hfurnished.wellFormed hrest
        exact ⟨⟨m, fs, middle⟩ :: turns, by rw [List.map_cons, hmembers],
          .passed (t := ⟨m, fs, middle⟩) hlands ⟨hfurnished, hsame⟩ hturns⟩

namespace Tar.Turns

variable {turns : List Turn} {l : Location} {node : Node}

/-- A node stays where it is until a member is written to that place. -/
theorem keeps (h : Turns caller destination fs turns fs') (hnode : fs.get? l = some node) :
    fs'.get? l = some node ∨ ∃ t ∈ turns, ∃ other, t.Wrote caller destination l other := by
  induction h with
  | nil => exact .inl hnode
  | @wrote t rest fs' k new hlands hwrote hrest ih =>
      by_cases hk : k = l
      · exact .inr ⟨t, List.mem_cons_self, new, hk ▸ hwrote⟩
      · obtain ⟨middle, hwrites⟩ := hwrote
        have hafter : t.after.get? l = some node := by
          rw [hwrites.eq_set, FileSystem.get?_set, if_neg hk]
          exact hwrites.furnished.within l node hnode
        exact (ih hafter).imp_right fun ⟨later, hlater, hother⟩ =>
          ⟨later, List.mem_cons_of_mem t hlater, hother⟩
  | @passed t rest fs' hlands hpassed hrest ih =>
      exact (ih (hpassed.furnished.within l node hnode)).imp_right fun ⟨later, hlater, hother⟩ =>
        ⟨later, List.mem_cons_of_mem t hlater, hother⟩

/-- The turns behind some of them. -/
theorem behind {front back : List Turn} {t : Turn}
    (h : Turns caller destination fs (front ++ t :: back) fs') :
    Turns caller destination t.after back fs' := by
  induction front generalizing fs with
  | nil =>
      cases h with
      | wrote _ _ hrest => exact hrest
      | passed _ _ hrest => exact hrest
  | cons first front ih =>
      cases h with
      | wrote _ _ hrest => exact ih hrest
      | passed _ _ hrest => exact ih hrest

/-- In its turn each member has been written if it lands, and passed over if it does not. -/
theorem of_mem (h : Turns caller destination fs turns fs') {t : Turn} (ht : t ∈ turns) :
    (t.member.Lands → ∃ l node, t.Wrote caller destination l node) ∧
      (¬ t.member.Lands → t.PassedOver caller) := by
  induction h with
  | nil => cases ht
  | wrote hlands hwrote _ ih =>
      rcases List.mem_cons.1 ht with rfl | ht
      · exact ⟨fun _ => ⟨_, _, hwrote⟩, fun hnot => absurd hlands hnot⟩
      · exact ih ht
  | passed hlands hpassed _ ih =>
      rcases List.mem_cons.1 ht with rfl | ht
      · exact ⟨fun hyes => absurd hyes hlands, fun _ => hpassed⟩
      · exact ih ht

/-- What a member wrote is there in the end, unless a later member has been written to that place. -/
theorem lasts (h : Turns caller destination fs turns fs') {front back : List Turn} {t : Turn}
    (hturns : turns = front ++ t :: back) (hwrote : t.Wrote caller destination l node) :
    fs'.get? l = some node ∨
      ∃ later ∈ back, ∃ other, later.Wrote caller destination l other := by
  subst hturns
  obtain ⟨middle, hwrites⟩ := hwrote
  refine h.behind.keeps ?_
  rw [hwrites.eq_set, FileSystem.get?_set, if_pos rfl]

end Tar.Turns

namespace Repository

open Execution (askTag)

/-- The members of an archive that an export unpacks and counts: all but remarks on all members. -/
def exported (archive : Bytes) : List Member :=
  (Tar.members archive).1.filter fun m => Tar.kindOf m.header != Tar.Kind.globalRemarks

/-- An export that succeeds has given each member of a sound archive its turn, and counts the turns. -/
theorem exists_turns_of_unpackAll {archive : Bytes} {n : Nat} (wf : fs.WellFormed)
    (h : (unpackAll destination archive).exec caller fs = (.ok n, fs')) :
    (Tar.members archive).2 = none ∧ ∃ turns, turns.map Turn.member = exported archive ∧
      n = turns.length ∧ Turns caller destination fs turns fs' := by
  rw [unpackAll] at h
  rcases hread : Tar.members archive with ⟨members, defect⟩
  rw [hread] at h
  obtain ⟨_, middle, hall, hcount⟩ := Storage.of_exec_bind_ok h
  obtain ⟨turns, hmembers, hturns⟩ := exists_turns_of_forM wf hall
  cases defect with
  | some e => cases hcount
  | none =>
      obtain ⟨rfl, rfl⟩ := Run.ok_inj hcount
      refine ⟨rfl, turns, ?_, ?_, hturns⟩
      · rw [exported, hread, hmembers]
      · rw [← hmembers, List.length_map]

/-- Whatever other programs do to files, every node stands under a name in a directory afterwards. -/
def LeavesWellFormed (programs : Programs) : Prop :=
  ∀ calls invocation caller fs, fs.WellFormed →
    (programs.respond calls invocation caller fs).2.WellFormed

/-- Files stay in good shape when a command of the repository answers. -/
theorem Replies.wellFormed {host : Host} {repository : Repository} {args : List String}
    {world world' : World} {response : Response} (hhost : LeavesWellFormed host.programs)
    (wf : world.files.WellFormed) (h : Replies host repository args world response world') :
    world'.files.WellFormed := by
  cases h with
  | replied starts hrespond =>
      have hleft := hhost world.calls (repository.invocation host args) host.caller world.files wf
      rwa [hrespond] at hleft

variable {host : Host} {repository : Repository} {tag : Tag} {part : Path} {world world' : World}

/-- An export that succeeds has read a sound archive to its end.  Each of its members has had its turn, and
the count is that of all turns.  The members that land have been written below the destination, and stay
there unless later ones are written to the same place; the others have been passed over. -/
theorem exportTag_spec {n : Nat} (hhost : LeavesWellFormed host.programs)
    (wf : world.files.WellFormed)
    (h : (exportTag repository tag part destination).exec host world = (.ok n, world')) :
    ∃ before said middle turns,
      Replies host repository ["archive", "--format=tar", treeName tag part] before said middle ∧
      said.succeeded = true ∧ (Tar.members said.stdout).2 = none ∧
      turns.map Turn.member = exported said.stdout ∧ n = turns.length ∧
      Turns host.caller destination middle.files turns world'.files ∧
      (∀ t ∈ turns, (t.member.Lands → ∃ l node, t.Wrote host.caller destination l node) ∧
        (¬ t.member.Lands → t.PassedOver host.caller)) ∧
      ∀ front t back, turns = front ++ t :: back →
        ∀ l node, t.Wrote host.caller destination l node → world'.files.get? l = some node ∨
          ∃ later ∈ back, ∃ other, later.Wrote host.caller destination l other := by
  obtain ⟨found, asked, hasked, h⟩ := Session.of_exec_bind_ok h
  obtain ⟨hfound, h⟩ := Session.of_exec_check_ok h
  obtain ⟨listed, before, hlisted, h⟩ := Session.of_exec_bind_ok h
  obtain ⟨archive, middle, harchive, h⟩ := Session.of_exec_bind_ok h
  obtain ⟨answer, hanswer, -⟩ := exec_succeeds_ok_iff.1 hasked
  obtain ⟨names, hnames, -⟩ := exec_run_ok_iff.1 hlisted
  obtain ⟨said, hsaid, hsucceeded, rfl⟩ := exec_run_ok_iff.1 harchive
  have hmiddle := hsaid.wellFormed hhost (hnames.wellFormed hhost (hanswer.wellFormed hhost wf))
  obtain ⟨hsound, turns, hmembers, hcount, hturns⟩ :=
    exists_turns_of_unpackAll hmiddle (Session.of_exec_files_ok h)
  exact ⟨before, said, middle, turns, hsaid, hsucceeded, hsound, hmembers, hcount, hturns,
    fun t => hturns.of_mem, fun front t back hsplit l node => hturns.lasts hsplit⟩

/-- A host on which `git` answers everything with the same bytes leaves files well-formed. -/
theorem leavesWellFormed_writing (written : Bytes) :
    LeavesWellFormed (Recording.writing written).programs :=
  fun _ _ _ _ wf => wf

/-- A file in an archive. -/
def fileBytes (name : String) (content : Bytes) : Bytes :=
  Tar.memberBytes ⟨Text.Utf8.ofString name, 0o644, content.length, 1, Tar.Kind.file, []⟩ content

/-- An export from an archive into an empty directory. -/
def exportOf (archive : Bytes) : Except Failure Nat × World :=
  (exportTag ⟨⟨"/r"⟩⟩ ⟨"V1"⟩ ⟨""⟩ ⟨"/out"⟩).exec (Recording.writing archive)
    { files := .ofNodes [(["out"], .directory Mode.directory 0)] }

/-- An archive of a file and of one in a directory. -/
def soundArchive : Bytes :=
  fileBytes "ok" [1] ++ (fileBytes "d/ok" [2] ++ Tar.ending)

/-- An archive of a file whose name leads upwards, and of another file. -/
def strayArchive : Bytes :=
  fileBytes "../stray" [1] ++ (fileBytes "ok" [2] ++ Tar.ending)

/-- Both files of a sound archive are written. -/
theorem exportTag_spec_sound : LeavesWellFormed (Recording.writing soundArchive).programs ∧
    (exportOf soundArchive).1 = .ok 2 ∧
    ∃ before turns, turns.length = 2 ∧
      Turns .superuserAtRoot ⟨"/out"⟩ before turns (exportOf soundArchive).2.files ∧
      ∀ t ∈ turns, ∃ l node, t.Wrote .superuserAtRoot ⟨"/out"⟩ l node := by
  have hrun : (exportOf soundArchive).1 = .ok 2 := by decide +kernel
  have hexec : exportOf soundArchive = (.ok 2, (exportOf soundArchive).2) := by
    rw [← hrun]
  have hlands : ∀ m ∈ exported soundArchive, m.Lands := by decide +kernel
  obtain ⟨_, said, middle, turns, hsaid, -, -, hmembers, hcount, hturns, hall, -⟩ :=
    exportTag_spec (leavesWellFormed_writing soundArchive)
      (FileSystem.wellFormed_ofNodes (by decide)) hexec
  have harchive : said.stdout = soundArchive := by
    cases hsaid with
    | replied _ hrespond => exact congrArg Response.stdout (Prod.mk.inj hrespond).1.symm
  rw [harchive] at hmembers
  refine ⟨leavesWellFormed_writing soundArchive, hrun, middle.files, turns, hcount.symm, hturns,
    fun t ht => (hall t ht).1 (hlands t.member ?_)⟩
  rw [← hmembers]
  exact List.mem_map_of_mem ht

/-- A file whose name leads upwards is counted and not written. -/
theorem exportTag_counts_stray :
    (exported strayArchive).map Member.path = [⟨"../stray"⟩, ⟨"ok"⟩] ∧
      (exportOf strayArchive).1 = .ok 2 ∧
      ((exportOf strayArchive).2.files.below []).map Prod.fst = [["out"], ["out", "ok"]] := by
  decide +kernel

end Repository

end RpmRelease
