import RpmRelease.CommandLine
import RpmRelease.Proofs.Run

/-!
# Switches and the words for them

A switch is only noted where a word for it stands.  No letter stands for moving a tag and no
environment variable does, so the word has to be among those of the command line.
-/

set_option autoImplicit false

namespace RpmRelease.CommandLine

/-! ## Words and items -/

/-- A name after two dashes without a value is all there is behind the dashes. -/
theorem eq_of_named {word name : String} (h : Word.ofString word = .named name none) :
    word = "--" ++ name := by
  unfold Word.ofString at h
  split at h
  · cases h
  · rename_i text _ hword
    obtain ⟨hname, hvalue⟩ := Word.named.inj h
    split at hvalue
    · cases hvalue
    · rename_i hrest
      have hfront : text.takeWhile (· != '=') <+: text := List.takeWhile_prefix _
      rw [List.drop_eq_nil_iff] at hrest
      rw [hfront.eq_of_length_le hrest] at hname
      rw [← String.toList_inj, hword, ← hname]
      simp
  · cases h
  · cases h
  · cases h

/-- Only the name `force` means that switch. -/
theorem eq_force_of_ofName {verb : Option Verb} {name : String}
    (h : Item.ofName? verb name = some (.switch .force)) : name = "force" := by
  unfold Item.ofName? at h
  have hname := List.find?_some h
  exact (beq_iff_eq.1 hname).symm

/-- No letter means the switch `force`. -/
theorem ofLetter_ne_force (verb : Option Verb) (letter : Char) :
    Item.ofLetter? verb letter ≠ some (.switch .force) := by
  intro h
  have hletter := List.find?_some h
  simp [Item.letter?] at hletter

/-! ## Readings -/

namespace Reading

variable {seen seen' : Reading}

/-- Settling an item adds no switch. -/
theorem switches_settle (h : seen.settle = .ok seen') : seen'.switches = seen.switches := by
  unfold settle at h
  split at h
  · cases h; rfl
  · cases h
  · split at h
    · cases h
    · split at h
      · cases h
      · cases h; rfl
  · split at h
    · cases h
    · cases h; rfl

/-- Beginning a setting adds no switch. -/
theorem switches_begin {which : Setting} {value : Option String}
    (h : seen.begin which value = .ok seen') : seen'.switches = seen.switches := by
  unfold begin at h
  obtain ⟨settled, hsettle, h⟩ := Run.of_bind_ok h
  rw [← switches_settle hsettle]
  dsimp only at h
  split at h
  · rw [switches_settle h]
  · cases h
    rfl

/-- A switch that is noted is the one that was said. -/
theorem mem_switches_note {which other : Switch} (h : seen.note which = .ok seen')
    (hother : other ∈ seen'.switches) : other ∈ seen.switches ∨ other = which := by
  unfold note at h
  obtain ⟨settled, hsettle, h⟩ := Run.of_bind_ok h
  rw [← switches_settle hsettle]
  have hadded (hseen : { settled with switches := settled.switches ++ [which] } = seen') :
      other ∈ settled.switches ∨ other = which := by
    rw [← hseen] at hother
    simpa using hother
  split at h
  · cases h
  · cases h
  · exact hadded (Except.ok.inj h)
  · obtain ⟨_, h⟩ := Run.of_check_ok h
    exact hadded (Except.ok.inj h)

/-- Letters do not add the switch `force`. -/
theorem force_of_readLetters {verb : Option Verb} {letters : List Char}
    (h : seen.readLetters verb letters = .ok seen') (hforce : .force ∈ seen'.switches) :
    .force ∈ seen.switches := by
  induction letters generalizing seen with
  | nil =>
      cases h
      exact hforce
  | cons letter more ih =>
      unfold readLetters at h
      split at h
      · cases h
      · rename_i which hletter
        obtain ⟨noted, hnote, h⟩ := Run.of_bind_ok h
        rcases mem_switches_note hnote (ih h) with hseen | rfl
        · exact hseen
        · exact absurd hletter (ofLetter_ne_force verb letter)
      · rw [switches_begin h] at hforce
        exact hforce

/-- A name adds the switch `force` only when it is that name, without a value. -/
theorem force_of_readName {verb : Option Verb} {name : String} {value : Option String}
    (h : seen.readName verb name value = .ok seen') (hforce : .force ∈ seen'.switches) :
    .force ∈ seen.switches ∨ (name = "force" ∧ value = none) := by
  unfold readName at h
  split at h
  · cases h
  · rename_i which hname
    split at h
    · cases h
    · rename_i hvalue
      refine (mem_switches_note h hforce).imp_right ?_
      rintro rfl
      exact ⟨eq_force_of_ofName hname, by simpa using hvalue⟩
  · rw [switches_begin h] at hforce
    exact .inl hforce

/-- An operand adds no switch. -/
theorem switches_readOperand {verb : Option Verb} {word : String}
    (h : seen.readOperand verb word = .ok seen') : seen'.switches = seen.switches := by
  unfold readOperand at h
  split at h
  · cases h
  · obtain ⟨_, h⟩ := Run.of_check_ok h
    obtain ⟨settled, hsettle, h⟩ := Run.of_bind_ok h
    rw [← switches_settle hsettle]
    cases h
    rfl
  · cases h

/-- Operands add no switch. -/
theorem switches_readOperands {verb : Option Verb} {words : List String}
    (h : seen.readOperands verb words = .ok seen') : seen'.switches = seen.switches := by
  induction words generalizing seen with
  | nil =>
      cases h
      rfl
  | cons word rest ih =>
      unfold readOperands at h
      obtain ⟨_, h⟩ := Run.of_check_ok h
      obtain ⟨read, hread, h⟩ := Run.of_bind_ok h
      rw [ih h, switches_readOperand hread]

end Reading

/-- What is read is said: the switch was there before, or its word is among those that are read. -/
theorem force_of_read {verb : Option Verb} {words : List String} {seen seen' : Reading}
    {rest : Option Continuation} (h : read verb seen words = .ok (seen', rest)) :
    (.force ∈ seen'.switches → .force ∈ seen.switches ∨ "--force" ∈ words) ∧
      ∀ found ∈ rest, found.words ⊆ words := by
  induction words generalizing seen with
  | nil =>
      cases h
      exact ⟨.inl, by simp⟩
  | cons word words ih =>
      -- What is read of this word alone, and then the rest of the words.
      have hstep {middle : Reading} (hread : read verb middle words = .ok (seen', rest))
          (hmiddle : .force ∈ middle.switches → .force ∈ seen.switches ∨ word = "--force") :
          (.force ∈ seen'.switches → .force ∈ seen.switches ∨ "--force" ∈ word :: words) ∧
            ∀ found ∈ rest, found.words ⊆ word :: words := by
        obtain ⟨hforce, hrest⟩ := ih hread
        refine ⟨fun hseen => ?_, fun found hfound => List.subset_cons_of_subset _ (hrest found hfound)⟩
        rcases hforce hseen with hseen | hwords
        · exact (hmiddle hseen).imp_right fun hword => by simp [hword]
        · exact .inr (List.mem_cons_of_mem _ hwords)
      unfold read at h
      dsimp only at h
      split at h
      · cases h
      split at h
      · cases h
        exact ⟨.inl, by simp⟩
      split at h
      · obtain ⟨middle, hread, h⟩ := Run.of_bind_ok h
        cases h
        exact ⟨fun hseen => .inl (Reading.switches_readOperands hread ▸ hseen), by simp⟩
      · rename_i name value hword
        obtain ⟨middle, hread, h⟩ := Run.of_bind_ok h
        refine hstep h fun hmiddle => (Reading.force_of_readName hread hmiddle).imp_right ?_
        rintro ⟨rfl, rfl⟩
        exact eq_of_named hword
      · obtain ⟨middle, hread, h⟩ := Run.of_bind_ok h
        exact hstep h fun hmiddle => .inl (Reading.force_of_readLetters hread hmiddle)
      · split at h
        · exact hstep h .inl
        · obtain ⟨middle, hread, h⟩ := Run.of_bind_ok h
          exact hstep h fun hmiddle => .inl (Reading.switches_readOperand hread ▸ hmiddle)

/-- A request that forces was read with the switch `force`. -/
theorem force_of_request {environment : Environment} {verb : Verb} {seen : Reading}
    {target : Target} {options : RunOptions}
    (h : request environment verb seen = .ok (.run target options)) (hforce : options.force = true) :
    .force ∈ seen.switches := by
  unfold request at h
  dsimp only at h
  split at h
  · cases h
  · split at h
    · cases h
    · cases h
  · split at h
    · cases h
    · cases h
      simpa using hforce

/-- A request that forces was read from words with `--force` among them. -/
theorem mem_words_of_readRequest {environment : Environment} {rest : Continuation} {seen : Reading}
    {target : Target} {options : RunOptions}
    (h : readRequest environment rest = .ok (seen, .run target options))
    (hforce : options.force = true) : "--force" ∈ rest.words := by
  unfold readRequest at h
  obtain ⟨⟨read, _⟩, hread, h⟩ := Run.of_bind_ok h
  obtain ⟨settled, hsettle, h⟩ := Run.of_bind_ok h
  obtain ⟨_, _, h⟩ := Run.of_bind_ok h
  obtain ⟨request, hrequest, h⟩ := Run.of_bind_ok h
  cases h
  have hsettled := force_of_request hrequest hforce
  rw [Reading.switches_settle hsettle] at hsettled
  exact ((force_of_read hread).1 hsettled).resolve_left (by simp)

/-- A tag is only moved on request: the option is set only where its word stands. -/
theorem mem_words_of_force {environment : Environment} {words : List String}
    {arguments : Arguments} {target : Target} {options : RunOptions}
    (h : parse environment words = .ok arguments) (hrequest : arguments.request = .run target options)
    (hforce : options.force = true) : "--force" ∈ words := by
  unfold parse at h
  -- options stand before the verb or behind it; only the latter are those of the run
  obtain ⟨⟨front, rest⟩, hfront, h⟩ := Run.of_bind_ok h
  cases rest with
  | none =>
      obtain ⟨_, _, h⟩ := Run.of_bind_ok h
      obtain ⟨_, _, h⟩ := Run.of_bind_ok h
      cases h
  | some rest =>
      obtain ⟨⟨behind, request⟩, hbehind, h⟩ := Run.of_bind_ok h
      obtain ⟨_, _, h⟩ := Run.of_bind_ok h
      obtain ⟨_, _, h⟩ := Run.of_bind_ok h
      cases h
      obtain rfl : request = .run target options := hrequest
      have hsaid := mem_words_of_readRequest hbehind hforce
      exact (force_of_read hfront).2 rest rfl hsaid

end RpmRelease.CommandLine
