import RpmRelease.Proofs.Path
import RpmRelease.Proofs.Run
import RpmRelease.Proofs.Tar.Header
import RpmRelease.Tar.Writer

/-!
# What a filled name field holds

A field for a name is filled component by component, with slashes between them.  The invariant
`Slot.Holds` says which text has been put so far; every component that is put adds itself to the
components of that text.  A field that was filled from empty therefore reads as a path with the
components that were to be put: all of them for a link target, and for a name all but a dot at its
beginning.  However filling ends, the field keeps its width.
-/

set_option autoImplicit false

namespace RpmRelease.Tar

namespace Slot

/-- Putting bytes: both refusals, and the field with the bytes in it. -/
theorem run_put (bytes : Bytes) (slot : Slot) :
    (put bytes).run slot =
      if 100 - slot.used < bytes.length then (.error "provided value is too long", slot)
      else if bytes.contains 0 then (.error "provided value contains a nul byte", slot)
      else
        let stop := if slot.used + bytes.length < 100 then [0] else []
        let front := slot.bytes.take slot.used ++ bytes ++ stop
        (.ok (), ⟨front ++ slot.bytes.drop front.length, slot.used + bytes.length⟩) := by
  by_cases hroom : 100 - slot.used < bytes.length
  · rw [if_pos hroom]
    show (ite _ _ _ : Filling).run slot = _
    rw [if_pos hroom]
    rfl
  · rw [if_neg hroom]
    show (ite _ _ _ : Filling).run slot = _
    rw [if_neg hroom]
    show (ite _ _ _ : Filling).run slot = _
    by_cases hzero : bytes.contains 0
    · rw [if_pos hzero, if_pos hzero]
      rfl
    · rw [if_neg hzero, if_neg hzero]
      rfl

/-- Bytes that were put have no NUL, had room, and stand behind the used part. -/
theorem of_run_put_ok {bytes : Bytes} {slot slot' : Slot}
    (h : (put bytes).run slot = (.ok (), slot')) :
    bytes.length ≤ 100 - slot.used ∧ 0 ∉ bytes ∧ ∃ stop,
      stop = (if slot.used + bytes.length < 100 then [0] else []) ∧
      slot'.used = slot.used + bytes.length ∧
      slot'.bytes = slot.bytes.take slot.used ++ bytes ++ stop ++
        slot.bytes.drop (slot.bytes.take slot.used ++ bytes ++ stop).length := by
  rw [run_put] at h
  split at h
  · exact absurd (congrArg Prod.fst h) (by simp)
  · next hroom =>
      split at h
      · exact absurd (congrArg Prod.fst h) (by simp)
      · next hzero =>
          have hslot := (congrArg Prod.snd h).symm
          simp only at hslot
          subst hslot
          exact ⟨by omega, by simpa using hzero, _, rfl, rfl, rfl⟩

/-! ## The width of a field -/

/-- Putting bytes into a field keeps its width. -/
theorem width_put (bytes : Bytes) {slot : Slot} (h : slot.bytes.length = 100) :
    ((put bytes).run slot).2.bytes.length = 100 := by
  rw [run_put]
  split
  · exact h
  · split
    · exact h
    · simp only [List.length_append, List.length_take, List.length_drop]
      split <;> simp only [List.length_cons, List.length_nil] <;> omega

/-- One step after the other keeps the width of a field. -/
theorem width_bind {α β : Type} {x : ExceptT String (StateM Slot) α}
    {f : α → ExceptT String (StateM Slot) β} {slot : Slot} (hx : (x.run slot).2.bytes.length = 100)
    (hf : ∀ a slot, slot.bytes.length = 100 → ((f a).run slot).2.bytes.length = 100) :
    ((x >>= f).run slot).2.bytes.length = 100 := by
  rw [Run.run_bind]
  rcases hrun : x.run slot with ⟨e | a, slot'⟩
  · rw [hrun] at hx
    exact hx
  · rw [hrun] at hx
    exact hf a slot' hx

/-! ## One component -/

/-- Why a component cannot be put in front of some others; nothing when it can. -/
def refusal (isLink cutShort : Bool) (rest : List Path.Component) : Path.Component → Option String
  | .root => if isLink then none else some "paths in archives must be relative"
  | .parent =>
    if !isLink && (!cutShort || !rest.isEmpty) then some "paths in archives must not have \x60..\x60"
    else none
  | _ => none

/-- Puts a component, with a slash in front when one is due. -/
def putOne (lead : Bool) (c : Path.Component) : Filling :=
  if lead then put [0x2F] >>= fun _ => put (Text.Utf8.ofString c.path.text)
  else put (Text.Utf8.ofString c.path.text)

/-- Putting components: the first one is refused, or left out, or put before the others. -/
theorem run_putComponents_cons (isLink cutShort only lead begun : Bool) (c : Path.Component)
    (rest : List Path.Component) (slot : Slot) :
    (putComponents isLink cutShort only lead begun (c :: rest)).run slot =
      match refusal isLink cutShort rest c with
      | some reason => (.error reason, slot)
      | none =>
        if !isLink && c == .current && !only then
          (putComponents isLink cutShort only lead begun rest).run slot
        else
          (putOne lead c >>= fun _ =>
            putComponents isLink cutShort only (lead || c != .root) true rest).run slot := by
  have hone : ∀ c : Path.Component, ((if lead then put [0x2F] >>= fun _ =>
        (put (Text.Utf8.ofString c.path.text) >>= fun _ =>
          putComponents isLink cutShort only (lead || c != .root) true rest)
      else put (Text.Utf8.ofString c.path.text) >>= fun _ =>
          putComponents isLink cutShort only (lead || c != .root) true rest) : Filling) =
      (putOne lead c >>= fun _ =>
        putComponents isLink cutShort only (lead || c != .root) true rest) := by
    intro c
    unfold putOne
    cases lead
    · rfl
    · simp only [if_true, bind_assoc]
  rw [← hone]
  cases isLink with
  | true => cases c <;> rfl
  | false =>
      cases c with
      | root => rfl
      | current => cases only <;> rfl
      | parent => cases cutShort <;> cases rest <;> rfl
      | normal name => rfl

/-- Putting components keeps the width, whether it succeeds or not. -/
theorem width_putComponents (isLink cutShort only : Bool) (cs : List Path.Component)
    (lead begun : Bool) {slot : Slot} (h : slot.bytes.length = 100) :
    ((putComponents isLink cutShort only lead begun cs).run slot).2.bytes.length = 100 := by
  induction cs generalizing lead begun slot with
  | nil =>
      rw [putComponents]
      cases begun <;> exact h
  | cons c rest ih =>
      rw [run_putComponents_cons]
      split
      · exact h
      · split
        · exact ih lead begun h
        · refine width_bind ?_ fun _ slot hslot => ih _ true hslot
          unfold putOne
          cases lead
          · exact width_put _ h
          · exact width_bind (width_put _ h) fun _ slot hslot => width_put _ hslot

/-- Filling in a path keeps the width of the field. -/
theorem width_fill (isLink cutShort : Bool) (path : Path) {slot : Slot}
    (h : slot.bytes.length = 100) : (fill slot isLink cutShort path).2.bytes.length = 100 := by
  unfold fill putPath
  refine width_bind (width_putComponents _ _ _ _ _ _ h) fun _ slot hslot => ?_
  split
  · exact width_put _ hslot
  · exact hslot

/-! ## The text in a field -/

/-- A field holds a text: its used part is that text, and a NUL follows if there is room. -/
structure Holds (slot : Slot) (text : List Char) : Prop where
  width : slot.bytes.length = 100
  used : slot.used = (Text.Utf8.encode text).length
  nonzero : 0 ∉ Text.Utf8.encode text
  split : ∃ rest, slot.bytes = Text.Utf8.encode text ++ rest ∧ ∀ b, rest.head? = some b → b = 0

/-- An empty field holds an empty text. -/
theorem holds_empty : empty.Holds [] :=
  ⟨List.length_replicate, rfl, by simp [Text.Utf8.encode], _, rfl, fun b hb => by
    simpa [List.replicate] using hb.symm⟩

/-- What is read from a field up to the first NUL is the text that it holds. -/
theorem Holds.cut_eq {slot : Slot} {text : List Char} (h : slot.Holds text) :
    cut slot.bytes = Text.Utf8.encode text := by
  obtain ⟨rest, hbytes, hhead⟩ := h.split
  rw [hbytes]
  cases rest with
  | nil =>
      rw [← cut_pad ((Text.Utf8.encode text ++ []).length + 1), pad, Nat.add_sub_cancel_left,
        List.append_nil]
      exact cut_append_zero [] h.nonzero
  | cons b rest =>
      obtain rfl := hhead b rfl
      exact cut_append_zero rest h.nonzero

/-- A text that was put stands behind the text before it. -/
theorem Holds.put {slot slot' : Slot} {text more : List Char} (h : slot.Holds text)
    (hrun : (put (Text.Utf8.encode more)).run slot = (.ok (), slot')) :
    slot'.Holds (text ++ more) := by
  obtain ⟨hroom, hzero, stop, hstop, hused, hbytes⟩ := of_run_put_ok hrun
  obtain ⟨rest, hsplit, _⟩ := h.split
  have htake : slot.bytes.take slot.used = Text.Utf8.encode text := by
    rw [hsplit, h.used, List.take_left]
  have hwidth := width_put (Text.Utf8.encode more) h.width
  rw [hrun] at hwidth
  refine ⟨hwidth, ?_, ?_, stop ++ slot.bytes.drop
    (slot.bytes.take slot.used ++ Text.Utf8.encode more ++ stop).length, ?_, ?_⟩
  · rw [hused, h.used, Text.Utf8.encode_append, List.length_append]
  · rw [Text.Utf8.encode_append, List.mem_append, not_or]
    exact ⟨h.nonzero, hzero⟩
  · rw [hbytes, htake, Text.Utf8.encode_append, ← List.append_assoc]
  · intro b hb
    by_cases hfull : slot.used + (Text.Utf8.encode more).length < 100
    · rw [if_pos hfull] at hstop
      rw [hstop] at hb
      simpa using hb.symm
    · rw [if_neg hfull] at hstop
      rw [hstop, List.nil_append] at hb
      have hnone : slot.bytes.drop
          (slot.bytes.take slot.used ++ Text.Utf8.encode more ++ []).length = [] := by
        refine List.drop_of_length_le ?_
        rw [h.width, List.append_nil, List.length_append, htake, ← h.used]
        omega
      rw [hnone] at hb
      simp at hb

/-! ## The components in a field -/

/-- The characters that a component adds to a field. -/
def extension (lead : Bool) (c : Path.Component) : List Char :=
  if lead then '/' :: c.chars else c.chars

/-- Putting a component extends the text that a field holds. -/
theorem Holds.putOne {slot slot' : Slot} {text : List Char} {lead : Bool} {c : Path.Component}
    (h : slot.Holds text) (hrun : (putOne lead c).run slot = (.ok (), slot')) :
    slot'.Holds (text ++ extension lead c) := by
  cases lead with
  | false => exact h.put hrun
  | true =>
      obtain ⟨_, middle, hslash, hname⟩ := Run.of_run_bind_ok hrun
      have hmiddle : middle.Holds (text ++ ['/']) := h.put hslash
      have hboth : middle.Holds (text ++ ['/']) → slot'.Holds (text ++ ['/'] ++ c.chars) :=
        fun h => h.put hname
      rw [List.append_assoc] at hboth
      exact hboth hmiddle

/-- A slash is due behind a text, or the text is the root. -/
def Ready (lead : Bool) (text : List Char) : Prop :=
  (lead = true ∧ text ≠ []) ∨ (lead = false ∧ text = ['/'])

/-- A text that is extended by a component is a path with this component in addition. -/
theorem components_extension {lead : Bool} {text : List Char} {c : Path.Component}
    (hready : Ready lead text) (hc : c.Inner) :
    Path.components ⟨String.ofList (text ++ extension lead c)⟩ =
      Path.components ⟨String.ofList text⟩ ++ [c] := by
  obtain ⟨_, hslash, _, hadded⟩ := hc.added_chars
  rcases hready with ⟨rfl, htext⟩ | ⟨rfl, rfl⟩
  · rw [extension, if_pos rfl, Path.components_append htext hslash, hadded]
  · rw [extension, if_neg (by decide), List.singleton_append, Path.components_root hslash, hadded]
    rfl

/-- A component that may follow others is never left out. -/
theorem of_run_putComponents_inner {isLink cutShort only lead begun : Bool} {c : Path.Component}
    {rest : List Path.Component} {slot slot' : Slot} (hc : c.Inner)
    (hrun : (putComponents isLink cutShort only lead begun (c :: rest)).run slot = (.ok (), slot')) :
    (putOne lead c >>= fun _ =>
      putComponents isLink cutShort only (lead || c != .root) true rest).run slot = (.ok (), slot') := by
  rw [run_putComponents_cons] at hrun
  split at hrun
  · exact absurd (congrArg Prod.fst hrun) (by simp)
  · rwa [if_neg (by simp [hc.ne_current])] at hrun

/-- Putting components behind a text adds them to the components of that text. -/
theorem Holds.putComponents {isLink cutShort only lead : Bool} {cs : List Path.Component}
    {slot slot' : Slot} {text : List Char} (h : slot.Holds text) (hready : Ready lead text)
    (hcs : ∀ c ∈ cs, c.Inner)
    (hrun : (putComponents isLink cutShort only lead true cs).run slot = (.ok (), slot')) :
    ∃ text', slot'.Holds text' ∧ text' ≠ [] ∧ Path.components ⟨String.ofList text'⟩ =
      Path.components ⟨String.ofList text⟩ ++ cs := by
  induction cs generalizing lead slot text with
  | nil =>
      have hslot : slot = slot' := congrArg Prod.snd hrun
      refine ⟨text, hslot ▸ h, ?_, (List.append_nil _).symm⟩
      rcases hready with ⟨_, hne⟩ | ⟨_, rfl⟩
      · exact hne
      · simp
  | cons c rest ih =>
      have hc := hcs c List.mem_cons_self
      obtain ⟨_, middle, hone, hmore⟩ := Run.of_run_bind_ok (of_run_putComponents_inner hc hrun)
      have hmiddle := h.putOne hone
      rw [bne_iff_ne.2 hc.ne_root, Bool.or_true] at hmore
      have hready' : Ready true (text ++ extension lead c) := by
        refine Or.inl ⟨rfl, ?_⟩
        rcases hready with ⟨_, hne⟩ | ⟨_, rfl⟩ <;> simp [*]
      obtain ⟨text', hholds, hne, hcomponents⟩ :=
        ih hmiddle hready' (fun d hd => hcs d (List.mem_cons_of_mem c hd)) hmore
      refine ⟨text', hholds, hne, ?_⟩
      rw [hcomponents, components_extension hready hc, List.append_assoc, List.singleton_append]

/-- The components of a path that a field keeps: a name of several components loses a dot. -/
def kept (isLink : Bool) (cs : List Path.Component) : List Path.Component :=
  if isLink || cs.length == 1 then cs else cs.filter (· != .current)

/-- Inner components are no dots. -/
theorem filter_inner {cs : List Path.Component} (hcs : ∀ c ∈ cs, c.Inner) :
    cs.filter (· != .current) = cs := by
  exact List.filter_eq_self.2 fun c hc => by simpa using (hcs c hc).ne_current

/-- Inner components are all kept. -/
theorem kept_of_inner (isLink : Bool) {cs : List Path.Component} (hcs : ∀ c ∈ cs, c.Inner) :
    kept isLink cs = cs := by
  rw [kept, filter_inner hcs, ite_self]

/-- The first component and then the others: the field holds all of them. -/
theorem of_putOne_empty {isLink cutShort only : Bool} {c : Path.Component}
    {rest : List Path.Component} {slot : Slot} (hrest : ∀ d ∈ rest, d.Inner)
    (hready : Ready (c != .root) c.chars) (hc : Path.components ⟨String.ofList c.chars⟩ = [c])
    (hrun : (putOne false c >>= fun _ =>
      putComponents isLink cutShort only (false || c != .root) true rest).run empty =
        (.ok (), slot)) :
    ∃ text, slot.Holds text ∧ text ≠ [] ∧
      Path.components ⟨String.ofList text⟩ = c :: rest := by
  obtain ⟨_, middle, hone, hmore⟩ := Run.of_run_bind_ok hrun
  have hmiddle : middle.Holds c.chars := holds_empty.putOne hone
  rw [Bool.false_or] at hmore
  obtain ⟨text, hholds, hne, heq⟩ := hmiddle.putComponents hready hrest hmore
  exact ⟨text, hholds, hne, by rw [heq, hc, List.singleton_append]⟩

/-- Putting components that may follow others into an empty field. -/
theorem of_putComponents_inner {isLink cutShort only : Bool} {cs : List Path.Component}
    {slot : Slot} (hcs : ∀ c ∈ cs, c.Inner)
    (hrun : (putComponents isLink cutShort only false false cs).run empty = (.ok (), slot)) :
    ∃ text, slot.Holds text ∧ text ≠ [] ∧ Path.components ⟨String.ofList text⟩ = cs := by
  cases cs with
  | nil => exact absurd hrun Run.run_throw_ne_ok
  | cons c rest =>
      have hc := hcs c List.mem_cons_self
      obtain ⟨hne, hslash, hcomponent, _⟩ := hc.added_chars
      refine of_putOne_empty (fun d hd => hcs d (List.mem_cons_of_mem c hd)) ?_ ?_
        (of_run_putComponents_inner hc hrun)
      · exact Or.inl ⟨bne_iff_ne.2 hc.ne_root, hne⟩
      · rw [Path.components_segment hne hslash, hcomponent]

/-- Putting components into an empty field puts those that a field keeps. -/
theorem of_putComponents_empty {isLink cutShort : Bool} {path : Path} {slot : Slot}
    (hrun : (putComponents isLink cutShort (path.components.length == 1) false false
      path.components).run empty = (.ok (), slot)) :
    ∃ text, slot.Holds text ∧ text ≠ [] ∧
      Path.components ⟨String.ofList text⟩ = kept isLink path.components := by
  obtain ⟨front, body, hpath, hfront, hbody⟩ := path.exists_components
  rw [hpath] at hrun ⊢
  rcases hfront with rfl | rfl | rfl
  · rw [List.nil_append] at hrun ⊢
    rw [kept_of_inner isLink hbody]
    exact of_putComponents_inner hbody hrun
  · rw [List.singleton_append] at hrun ⊢
    rw [run_putComponents_cons] at hrun
    cases isLink with
    | false => exact absurd (congrArg Prod.fst hrun) (by simp [refusal])
    | true => exact of_putOne_empty hbody (Or.inr ⟨rfl, rfl⟩) rfl hrun
  · rw [List.singleton_append] at hrun ⊢
    rw [run_putComponents_cons] at hrun
    have hdot : Path.components ⟨String.ofList Path.Component.current.chars⟩ = [.current] := by
      decide
    by_cases hall : (isLink || (Path.Component.current :: body).length == 1) = true
    · have hskip : (!isLink && Path.Component.current == .current &&
          !((Path.Component.current :: body).length == 1)) = false := by
        cases isLink
        · simpa using hall
        · rfl
      simp only [refusal, hskip] at hrun
      rw [kept, if_pos hall]
      exact of_putOne_empty hbody (Or.inl ⟨rfl, by decide⟩) hdot hrun
    · have hnone : isLink = false ∧ ((Path.Component.current :: body).length == 1) = false := by
        simpa [not_or] using hall
      simp only [refusal, hnone.1, hnone.2] at hrun
      rw [kept, if_neg hall, List.filter_cons_of_neg (by decide), filter_inner hbody]
      exact of_putComponents_inner hbody hrun

/-- A field that was filled from empty holds a text with the components that a field keeps. -/
theorem exists_holds_of_fill {isLink cutShort : Bool} {path : Path} {slot : Slot}
    (h : empty.fill isLink cutShort path = (.ok (), slot)) :
    ∃ text, slot.Holds text ∧ text ≠ [] ∧
      Path.components ⟨String.ofList text⟩ = kept isLink path.components := by
  obtain ⟨_, middle, hcomponents, hslash⟩ := Run.of_run_bind_ok (s := empty) h
  obtain ⟨text, hholds, hne, heq⟩ := of_putComponents_empty hcomponents
  by_cases hlast : (path.text.toList.getLast? == some '/') = true
  · rw [if_pos hlast] at hslash
    have hput : slot.Holds (text ++ ['/']) := hholds.put hslash
    exact ⟨text ++ ['/'], hput, by simp, (Path.components_append_slash hne).trans heq⟩
  · rw [if_neg hlast] at hslash
    have hslot : middle = slot := congrArg Prod.snd hslash
    exact ⟨text, hslot ▸ hholds, hne, heq⟩

/-- Of the components of a name, all are kept but perhaps a dot at the beginning. -/
theorem kept_name (path : Path) : kept false path.components = path.components ∨
    path.components = .current :: kept false path.components := by
  obtain ⟨front, body, hpath, hfront, hbody⟩ := path.exists_components
  rw [hpath, kept]
  split
  · exact Or.inl rfl
  · rcases hfront with rfl | rfl | rfl
    · exact Or.inl (filter_inner hbody)
    · rw [List.filter_append, filter_inner hbody]
      exact Or.inl rfl
    · rw [List.filter_append, filter_inner hbody]
      exact Or.inr rfl

end Slot

end RpmRelease.Tar
