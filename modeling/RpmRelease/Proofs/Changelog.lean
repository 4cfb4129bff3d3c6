import RpmRelease.Changelog
import RpmRelease.Proofs.Calendar
import RpmRelease.Proofs.Text.Lines

/-!
# Reading a changelog back

The lines of a changelog are those of its entries, one after the other.  An entry is a heading, if
there is one, an empty line, the first line of a message behind a tab and a star, and the further
lines of the message.  Empty lines are ambiguous one by one: they separate entries, stand before
headings and inside messages.  Read backwards they are not: the empty line that separates is the
last one before a first line or a heading, and all those before it belong to the message above.
`decode` reads like that, and `decode_render` says that it finds the commits that were listed.
-/

set_option autoImplicit false

namespace RpmRelease.Changelog

open Text (IsLine)

/-- What a changelog says about one commit. -/
structure Entry where
  /-- the line of the heading that stands before it -/
  heading : Option (List Char)
  /-- the first line of the message -/
  first : List Char
  /-- the further lines of the message -/
  more : List (List Char)
deriving DecidableEq, Repr

namespace Entry

/-- A further line of a message, two blanks deeper than a tab; an empty line has no indent. -/
def indent (line : List Char) : List Char :=
  if line = [] then [] else '\t' :: ' ' :: ' ' :: line

/-- The lines of an entry, with an empty one before its heading. -/
def lines (e : Entry) : List (List Char) :=
  e.heading.toList.flatMap ([[], ·]) ++ [] :: ('\t' :: '*' :: ' ' :: e.first) :: e.more.map indent

/-- The entry of a commit that is listed after another one: lines are without trailing blanks, and
there is a heading unless that of the commit before still holds. -/
def ofCommit (previous : Option Commit) (c : Commit) : Entry where
  heading :=
    if previous.map Heading.ofCommit = some (Heading.ofCommit c) then none
    else some (Heading.ofCommit c).line
  first := Text.trimEnd ((Text.lines c.message.toList).headD [])
  more := (Text.lines c.message.toList).tail.map Text.trimEnd

end Entry

/-- The commits that a changelog lists. -/
def listed (history : List Commit) : List Commit :=
  history.filter (!isGenerated ·)

/-- The entries of a changelog, each made with the commit that is listed before it. -/
def entries (history : List Commit) : List Entry :=
  List.zipWith Entry.ofCommit (none :: (listed history).map some) (listed history)

/-- The lines of some entries.  There is no empty line before the first heading. -/
def layout (es : List Entry) : List (List Char) :=
  (es.flatMap Entry.lines).drop 1

/-! ### Decoding -/

/-- Whether a line is the first one of a message. -/
def isFirst (line : List Char) : Bool :=
  ['\t', '*', ' '].isPrefixOf line

/-- Whether a line is a heading. -/
def isHeading (line : List Char) : Bool :=
  line.head?.any (· != '\t')

/-- Reads lines from the last to the first: the lines that belong to no entry yet, and the
entries. -/
def decodeBack : List (List Char) → List (List Char) × List Entry
  | [] => ([], [])
  | line :: lines =>
    let (after, es) := decodeBack lines
    if isFirst line then
      -- the line before the next entry only separates
      let body := if es.isEmpty then after else after.dropLast
      ([], { heading := none, first := line.drop 3, more := body.map (·.drop 3) } :: es)
    else if isHeading line then
      ([], es.modifyHead ({ · with heading := some line }))
    else (line :: after, es)

/-- The entries that some lines hold. -/
def decode (lines : List (List Char)) : List Entry :=
  (decodeBack lines).2

/-- A further line of a message is not taken for the first one. -/
theorem isFirst_indent (line : List Char) : isFirst (Entry.indent line) = false := by
  unfold Entry.indent
  split <;> rfl

/-- A further line of a message is not taken for a heading. -/
theorem isHeading_indent (line : List Char) : isHeading (Entry.indent line) = false := by
  unfold Entry.indent
  split <;> rfl

/-- Lines that are neither first ones nor headings are put in front of what is read behind them. -/
theorem decodeBack_append (body lines : List (List Char))
    (h : ∀ line ∈ body, isFirst line = false ∧ isHeading line = false) :
    decodeBack (body ++ lines) = (body ++ (decodeBack lines).1, (decodeBack lines).2) := by
  induction body with
  | nil => rfl
  | cons line body ih =>
    obtain ⟨hfirst, hheading⟩ := h line List.mem_cons_self
    rw [List.cons_append, decodeBack, ih fun other ho => h other (List.mem_cons_of_mem _ ho)]
    simp only [hfirst, hheading, Bool.false_eq_true, if_false, List.cons_append]

/-- An empty line is put in front of what is read behind it. -/
theorem decodeBack_empty (lines : List (List Char)) :
    decodeBack ([] :: lines) = ([] :: (decodeBack lines).1, (decodeBack lines).2) :=
  decodeBack_append [[]] lines (by simp [isFirst, isHeading])

/-- The lines of entries are read back as these entries, and the empty line before the first of
them is left. -/
theorem decodeBack_flatMap {es : List Entry}
    (h : ∀ e ∈ es, ∀ line ∈ e.heading, isFirst line = false ∧ isHeading line = true) :
    decodeBack (es.flatMap Entry.lines) = (if es.isEmpty then [] else [[]], es) := by
  induction es with
  | nil => rfl
  | cons e es ih =>
    obtain ⟨heading, first, more⟩ := e
    have hrest := ih fun other ho => h other (List.mem_cons_of_mem _ ho)
    -- of this entry, the message comes first when its lines are read backwards
    have hmore : decodeBack (more.map Entry.indent ++ es.flatMap Entry.lines) =
        (more.map Entry.indent ++ if es.isEmpty then [] else [[]], es) := by
      rw [decodeBack_append, hrest]
      simp [isFirst_indent, isHeading_indent]
    -- the empty line in front of the next entry is no part of the message
    have hbody : (if es.isEmpty then more.map Entry.indent ++ (if es.isEmpty then [] else [[]])
        else (more.map Entry.indent ++ if es.isEmpty then [] else [[]]).dropLast) =
        more.map Entry.indent := by
      split <;> simp_all
    have hdrop (line : List Char) : (Entry.indent line).drop 3 = line := by
      unfold Entry.indent
      split <;> simp_all
    have hentry : decodeBack (('\t' :: '*' :: ' ' :: first) ::
        (more.map Entry.indent ++ es.flatMap Entry.lines)) = ([], ⟨none, first, more⟩ :: es) := by
      rw [decodeBack, hmore]
      simp only [hbody, List.map_map, Function.comp_def, hdrop]
      simp [isFirst]
    rw [List.flatMap_cons, Entry.lines]
    simp only [List.append_assoc, List.cons_append]
    cases heading with
    | none =>
      rw [Option.toList_none, List.flatMap_nil, List.nil_append, decodeBack_empty, hentry]
      rfl
    | some line =>
      obtain ⟨hfirst, hheading⟩ := h _ List.mem_cons_self line rfl
      simp only [Option.toList_some, List.flatMap_cons, List.flatMap_nil, List.append_nil,
        List.cons_append, List.nil_append]
      rw [decodeBack_empty, decodeBack, decodeBack_empty, hentry]
      simp [hfirst, hheading]

/-- The lines of entries begin with an empty one, and then comes their layout. -/
theorem flatMap_lines {es : List Entry} (hne : es ≠ []) :
    es.flatMap Entry.lines = [] :: layout es := by
  obtain ⟨e, es, rfl⟩ := List.exists_cons_of_ne_nil hne
  rw [layout, List.flatMap_cons, Entry.lines]
  cases e.heading <;> rfl

/-- The lines of a layout are read back as its entries. -/
theorem decode_layout {es : List Entry}
    (h : ∀ e ∈ es, ∀ line ∈ e.heading, isFirst line = false ∧ isHeading line = true) :
    decode (layout es) = es := by
  by_cases hne : es = []
  · rw [hne]
    rfl
  · have hback := decodeBack_flatMap h
    rw [flatMap_lines hne, decodeBack_empty] at hback
    exact (Prod.mk.inj hback).2

/-- The first lines of a layout are those of its entries, one each. -/
theorem filter_layout {es : List Entry}
    (h : ∀ e ∈ es, ∀ line ∈ e.heading, isFirst line = false ∧ isHeading line = true) :
    (layout es).filter isFirst = es.map fun e => '\t' :: '*' :: ' ' :: e.first := by
  have hentry (e : Entry) (he : ∀ line ∈ e.heading, isFirst line = false ∧ isHeading line = true) :
      e.lines.filter isFirst = ['\t' :: '*' :: ' ' :: e.first] := by
    have hmore : (e.more.map Entry.indent).filter isFirst = [] := by
      simp [List.filter_eq_nil_iff, isFirst_indent]
    have hheading : (e.heading.toList.flatMap ([[], ·])).filter isFirst = [] := by
      cases hline : e.heading with
      | none => rfl
      | some line =>
        have hline := (he line hline).1
        simp [hline, show isFirst [] = false from rfl]
    rw [Entry.lines, List.filter_append, hheading, List.nil_append]
    simpa [isFirst, List.isPrefixOf] using hmore
  have hall : (es.flatMap Entry.lines).filter isFirst =
      es.map fun e => '\t' :: '*' :: ' ' :: e.first := by
    induction es with
    | nil => rfl
    | cons e es ih =>
      rw [List.flatMap_cons, List.filter_append, hentry e (h e List.mem_cons_self),
        ih fun other ho => h other (List.mem_cons_of_mem _ ho)]
      rfl
  by_cases hne : es = []
  · rw [hne]
    rfl
  · rw [← hall, flatMap_lines hne, List.filter_cons_of_neg (by simp [isFirst])]

/-! ### What is written -/

/-- The line of a heading is taken for a heading, and not for the first line of a message. -/
theorem isHeading_line (h : Heading) : isFirst h.line = false ∧ isHeading h.line = true := by
  obtain ⟨hne, hblank⟩ := Date.render_spec h.date
  obtain ⟨c, cs, hcs⟩ := List.exists_cons_of_ne_nil hne
  have htab : c ≠ '\t' := by
    rintro rfl
    exact absurd (hblank '\t' (by simp [hcs])) (by decide)
  rw [Heading.line]
  simp only [String.toList_append, hcs, List.cons_append]
  simp [isFirst, isHeading, htab, List.isPrefixOf, Ne.symm htab]

/-- The loop over the listed commits lays out their entries. -/
theorem linesBelow_eq (previous : Option Commit) (commits : List Commit) :
    linesBelow (previous.map Heading.ofCommit) commits =
      ((List.zipWith Entry.ofCommit (previous :: commits.map some) commits).flatMap
        Entry.lines).drop (if previous.isSome then 0 else 1) := by
  induction commits generalizing previous with
  | nil => cases previous <;> rfl
  | cons c commits ih =>
    have hentry : entryLines c = [] :: ('\t' :: '*' :: ' ' :: (Entry.ofCommit previous c).first) ::
        (Entry.ofCommit previous c).more.map Entry.indent := by
      have hnext (line : List Char) : nextLine line = Entry.indent (Text.trimEnd line) := by
        simp only [nextLine, Entry.indent, List.isEmpty_iff, Text.trim_eq_nil_iff]
      unfold entryLines Entry.ofCommit
      cases Text.lines c.message.toList with
      | nil => rfl
      | cons first more => simp [firstLine, hnext, Function.comp_def]
    have hrest := ih (some c)
    simp only [Option.map_some, Option.isSome_some, if_true, List.drop_zero] at hrest
    simp only [linesBelow, hrest, List.map_cons, List.zipWith_cons_cons, List.flatMap_cons, hentry,
      Entry.lines]
    cases previous with
    | none => simp [Entry.ofCommit]
    | some p =>
      by_cases hsame : Heading.ofCommit p = Heading.ofCommit c <;>
        simp [Entry.ofCommit, hsame]

/-- A heading is written on one line when it names no line feed. -/
theorem isLine_line {h : Heading} (hauthor : '\n' ∉ h.author.toList)
    (hemail : '\n' ∉ h.email.toList) : IsLine h.line := by
  have hdate : '\n' ∉ h.date.render.toList := fun hmem =>
    absurd ((Date.render_spec h.date).2 _ hmem) (by decide)
  rw [Heading.line]
  simp [IsLine, String.toList_append, hdate, hauthor, hemail, List.getLast?_cons]

/-- A line of a message is written on one line, without its trailing blanks and behind whatever
does not end in a carriage return. -/
theorem isLine_append_trimEnd {line : List Char} {message : String} (front : List Char)
    (hfront : IsLine front) (hline : line = [] ∨ line ∈ Text.lines message.toList) :
    IsLine (front ++ Text.trimEnd line) := by
  have hnot : '\n' ∉ line := by
    rcases hline with rfl | hline
    · simp
    · exact Text.not_mem_of_mem_lines hline
  refine ⟨fun hmem => ?_, fun hlast => ?_⟩
  · rcases List.mem_append.1 hmem with hmem | hmem
    · exact hfront.1 hmem
    · exact hnot (Text.mem_of_mem_trimEnd hmem)
  · rw [List.getLast?_append] at hlast
    rcases Option.or_eq_some_iff.1 hlast with hlast | ⟨_, hlast⟩
    · exact absurd (Text.isBlank_of_getLast?_trimEnd hlast) (by decide)
    · exact hfront.2 hlast

/-- Every line of an entry is written on one line. -/
theorem isLine_of_mem_lines {previous : Option Commit} {c : Commit} {line : List Char}
    (hauthor : '\n' ∉ c.author.toList) (hemail : '\n' ∉ c.email.toList)
    (h : line ∈ (Entry.ofCommit previous c).lines) : IsLine line := by
  have hempty : IsLine [] := by simp [IsLine]
  rw [Entry.lines, List.mem_append, List.mem_cons, List.mem_cons] at h
  rcases h with hheading | hline | hline | hline
  · rw [Entry.ofCommit] at hheading
    split at hheading
    · simp at hheading
    · simp only [Option.toList_some, List.flatMap_cons, List.flatMap_nil, List.append_nil,
        List.mem_cons, List.not_mem_nil, or_false] at hheading
      rcases hheading with hline | hline
      · exact hline ▸ hempty
      · exact hline ▸ isLine_line hauthor hemail
  · exact hline ▸ hempty
  · rw [hline]
    refine isLine_append_trimEnd ['\t', '*', ' '] (by simp [IsLine])
      (?_ : _ ∨ _ ∈ Text.lines c.message.toList)
    cases hlines : Text.lines c.message.toList <;> simp
  · obtain ⟨text, htext, hindent⟩ := List.mem_map.1 hline
    obtain ⟨inner, hinner, hinnerText⟩ := List.mem_map.1 htext
    rw [← hindent, Entry.indent]
    split
    · exact hempty
    · rw [← hinnerText]
      exact isLine_append_trimEnd ['\t', ' ', ' '] (by simp [IsLine])
        (.inr (List.mem_of_mem_tail hinner))

/-- Each entry of a changelog is made from a listed commit. -/
theorem exists_of_mem_entries {history : List Commit} {e : Entry} (h : e ∈ entries history) :
    ∃ previous, ∃ c ∈ listed history, e = Entry.ofCommit previous c := by
  rw [entries, ← List.map_uncurry_zip_eq_zipWith] at h
  obtain ⟨⟨previous, c⟩, hpair, rfl⟩ := List.mem_map.1 h
  exact ⟨previous, c, (List.of_mem_zip hpair).2, rfl⟩

/-- The heading lines of an entry are taken for headings. -/
theorem isHeading_of_mem_entries {history : List Commit} :
    ∀ e ∈ entries history, ∀ line ∈ e.heading, isFirst line = false ∧ isHeading line = true := by
  intro e he line hline
  obtain ⟨previous, c, -, rfl⟩ := exists_of_mem_entries he
  simp only [Entry.ofCommit] at hline
  split at hline
  · simp at hline
  · rw [← Option.some.inj hline]
    exact isHeading_line _

/-- A rendered changelog has the lines of its entries. -/
theorem lines_render {history : List Commit}
    (hnames : ∀ c ∈ history, '\n' ∉ c.author.toList ∧ '\n' ∉ c.email.toList) :
    Text.lines (render history).toList = layout (entries history) := by
  have hlines : linesBelow none (listed history) = layout (entries history) :=
    linesBelow_eq none (listed history)
  rw [render, String.toList_ofList, ← listed, hlines]
  refine Text.lines_ofLines fun line hline => ?_
  obtain ⟨e, he, hline⟩ := List.mem_flatMap.1 (List.mem_of_mem_drop hline)
  obtain ⟨previous, c, hc, rfl⟩ := exists_of_mem_entries he
  obtain ⟨hauthor, hemail⟩ := hnames c (List.mem_filter.1 hc).1
  exact isLine_of_mem_lines hauthor hemail hline

/-- The first lines of the entries are those of the messages of the listed commits, without trailing
blanks. -/
theorem map_entries {α : Type} (f : List Char → α) (history : List Commit) :
    (entries history).map (fun e => f e.first) = (listed history).map fun c =>
      f (Text.trimEnd ((Text.lines c.message.toList).headD [])) := by
  rw [entries, List.map_zipWith]
  generalize listed history = commits
  generalize (none : Option Commit) = previous
  induction commits generalizing previous with
  | nil => rfl
  | cons c commits ih =>
    rw [List.map_cons, List.zipWith_cons_cons, ih]
    rfl

/-- A changelog is read back without doubt: its lines are those of the entries of the listed
commits, in order, one first line for each, and decoding finds these entries, with a heading just
where the date, the author or the address changes.  The date of a heading is the calendar's for the
day of the commit, or the epoch where that is out of range.  Histories with the same changelog
therefore have the same headings in the same places and the same messages up to blanks at the ends
of lines. -/
theorem decode_render (history : List Commit)
    (hnames : ∀ c ∈ history, '\n' ∉ c.author.toList ∧ '\n' ∉ c.email.toList) :
    Text.lines (render history).toList = layout (entries history) ∧
    (Text.lines (render history).toList).filter isFirst = (listed history).map (fun c =>
      '\t' :: '*' :: ' ' :: Text.trimEnd ((Text.lines c.message.toList).headD [])) ∧
    decode (Text.lines (render history).toList) = entries history ∧
    (∀ c ∈ history, ∃ d, Date.IsDay (c.timestamp / 86400) d ∧
      (Heading.ofCommit c).date = if Date.yearInRange d.year then d else ⟨1970, 1, 1⟩) ∧
    ∀ other : List Commit, (∀ c ∈ other, '\n' ∉ c.author.toList ∧ '\n' ∉ c.email.toList) →
      render other = render history → entries other = entries history := by
  have hdecode {commits : List Commit}
      (hclean : ∀ c ∈ commits, '\n' ∉ c.author.toList ∧ '\n' ∉ c.email.toList) :
      decode (Text.lines (render commits).toList) = entries commits := by
    rw [lines_render hclean, decode_layout isHeading_of_mem_entries]
  refine ⟨lines_render hnames, ?_, hdecode hnames, fun c _ => ?_, fun other hother hsame => ?_⟩
  · rw [lines_render hnames, filter_layout isHeading_of_mem_entries]
    exact map_entries (fun text => '\t' :: '*' :: ' ' :: text) history
  · have hday := Date.isDay_iff.2 (Eq.refl (Date.ofDayNumber (c.timestamp / 86400)))
    exact ⟨_, hday, Date.ofTimestamp_eq hday⟩
  · rw [← hdecode hother, hsame, hdecode hnames]

/-- Three commits on two days, one of them with a blank line at the end of its message and one
that only records a changelog. -/
def twoDays : List Commit := [
  { author := "J", email := "j@x", timestamp := 86400, message := "b \n\nc\n \n" },
  { author := "J", email := "j@x", timestamp := 86400,
    message := "Generated by rpm-rail changelog on 1970-01-02" },
  { author := "J", email := "j@x", timestamp := -1, message := "a" }]

/-- The changelog of the two days is read back. -/
theorem decode_render_twoDays : decode (Text.lines (render twoDays).toList) = [
    ⟨some "1970-01-02  J  <j@x>".toList, ['b'], [[], ['c'], []]⟩,
    ⟨some "1969-12-31  J  <j@x>".toList, ['a'], []⟩] :=
  (decode_render twoDays (by decide +kernel)).2.2.1.trans (by decide +kernel)

end RpmRelease.Changelog
