import RpmRelease.Proofs.FileSystem.Lookup
import RpmRelease.Proofs.Path.Above

/-!
# Where the components of a path lead

Some steps of a path only stay: those of single dots and of a slash at its end.  Without them, the
steps of a path are written by its components.  Leaving them out changes nothing about a walk that
leads to some place, so that two paths with the same components cannot lead to different places.

From this follows where a path leads whose components are those of another path and names behind
them: by these names from where the other path leads, as long as none of them is a link.
-/

set_option autoImplicit false

namespace RpmRelease

/-! ## Steps and components -/

/-- The step that a component asks for. -/
def Path.Component.step? : Path.Component → Option Lookup.Step
  | .root => none
  | .current => none
  | .parent => some .up
  | .normal name => some (.name name)

namespace Lookup

/-- Whether a step stays where it is. -/
def Step.stays : Step → Bool
  | .here => true
  | .directory => true
  | .up => false
  | .name _ => false

/-- The steps that lead to another place. -/
def course (p : Path) : List Step :=
  p.components.filterMap Path.Component.step?

/-- Names as components ask for the steps to these names. -/
theorem filterMap_step?_normal (names : List String) :
    (names.map Path.Component.normal).filterMap Path.Component.step? = names.map Step.name := by
  rw [List.filterMap_map, ← List.filterMap_eq_map]
  rfl

/-- The step of a segment leads to another place when the segment writes a component. -/
theorem filter_ofSegment (s : Path.Segment) (hs : s = .inner s.text ∨ s.counts = !s.text.isEmpty) :
    (Step.ofSegment s.text).toList.filter (!·.stays) =
      (Path.written [s]).filterMap Path.Component.step? := by
  obtain ⟨text, counts⟩ := s
  by_cases hempty : text = []
  · obtain rfl : counts = false := by
      rcases hs with hs | hs
      · simpa [Path.Segment.inner, hempty] using hs
      · simpa [hempty] using hs
    subst hempty
    rfl
  -- an empty segment and a dot write nothing, and their steps stay; two dots go up
  · by_cases hcurrent : text = ['.']
    · subst hcurrent
      cases counts <;> rfl
    · obtain rfl : counts = true := by
        cases text with
        | nil => exact absurd rfl hempty
        | cons c cs =>
            have hother : (c :: cs != ['.']) = true := bne_iff_ne.2 hcurrent
            rcases hs with hs | hs
            · simpa [Path.Segment.inner, hother] using hs
            · simpa using hs
      have hstep : Step.ofSegment text =
          if text = ['.', '.'] then some .up else some (.name (String.ofList text)) := by
        simp [Step.ofSegment, hempty, hcurrent]
      have hwritten : Path.written [⟨text, true⟩] =
          [if text = ['.', '.'] then .parent else .normal (String.ofList text)] := by
        simp [Path.written, Path.Segment.component, hcurrent]
      rw [hstep, hwritten]
      by_cases hparent : text = ['.', '.']
      · rw [if_pos hparent, if_pos hparent]
        rfl
      · rw [if_neg hparent, if_neg hparent]
        rfl

/-- The steps of segments that lead to another place are those of the components they write. -/
theorem filter_ofSegments (segments : List Path.Segment)
    (hs : ∀ s ∈ segments, s = .inner s.text ∨ s.counts = !s.text.isEmpty) :
    ((segments.map Path.Segment.text).filterMap Step.ofSegment).filter (!·.stays) =
      (Path.written segments).filterMap Path.Component.step? := by
  induction segments with
  | nil => rfl
  | cons s segments ih =>
      have hfirst := filter_ofSegment s (hs s List.mem_cons_self)
      have hrest := ih fun t ht => hs t (List.mem_cons_of_mem s ht)
      have hcons : Path.written (s :: segments) = Path.written [s] ++ Path.written segments :=
        Path.written_append [s] segments
      rw [hcons, List.filterMap_append, ← hrest, ← hfirst, ← List.filter_append, List.map_cons,
        List.filterMap_cons]
      cases Step.ofSegment s.text <;> rfl

/-- The steps of a text that lead to another place are those of its components. -/
theorem filter_found (p : Path) : (found p.text.toList).filter (!·.stays) = course p := by
  rw [course, Path.components_eq, found]
  rcases p.cases_segments with ⟨cs, htext, habsolute, hsegments⟩ |
    ⟨first, more, hcut, -, hrelative, hsegments⟩
  · have hcut : Text.splitWhen (· == '/') ('/' :: cs) = [] :: Text.splitWhen (· == '/') cs := rfl
    have hsteps := filter_ofSegments ((Text.splitWhen (· == '/') cs).map Path.Segment.inner)
      (by simp [Path.Segment.inner])
    rw [habsolute, hsegments, htext, hcut, List.filterMap_append, ← hsteps, List.map_map]
    simp [Function.comp_def, Path.Segment.inner, Step.ofSegment, Path.Component.step?]
  · have hsteps := filter_ofSegments
      (⟨first, !first.isEmpty⟩ :: more.map Path.Segment.inner) (by simp [Path.Segment.inner])
    rw [hrelative, hsegments, hcut, List.filterMap_append, ← hsteps, List.map_cons, List.map_map]
    simp [Function.comp_def, Path.Segment.inner]

/-- The course of a path is made up of its steps that do not stay. -/
theorem filter_steps (p : Path) : (steps p.text).filter (!·.stays) = course p := by
  rcases steps_eq p.text with hsteps | hsteps
  · rw [hsteps, filter_found]
  · rw [hsteps, List.filter_append, filter_found]
    exact List.append_nil _

/-! ## Leaving out steps that stay -/

/-- A list of steps without some of those that stay. -/
inductive Drops : List Step → List Step → Prop
  | nil : Drops [] []
  | keep (s : Step) {path path' : List Step} : Drops path path' → Drops (s :: path) (s :: path')
  | drop {s : Step} {path path' : List Step} :
      s.stays = true → Drops path path' → Drops (s :: path) path'

/-- Steps may be put in front of steps of which some are dropped. -/
theorem Drops.append (front : List Step) {path path' : List Step} (h : Drops path path') :
    Drops (front ++ path) (front ++ path') := by
  induction front with
  | nil => exact h
  | cons s front ih => exact .keep s ih

/-- All steps that stay may be dropped. -/
theorem drops_filter (path : List Step) : Drops path (path.filter (!·.stays)) := by
  induction path with
  | nil => exact .nil
  | cons s path ih =>
      cases hs : s.stays with
      | true =>
          rw [List.filter_cons_of_neg (by simp [hs])]
          exact .drop hs ih
      | false =>
          rw [List.filter_cons_of_pos (by simp [hs])]
          exact .keep s ih

/-- A place without the word whether a slash follows a vacant name. -/
def Place.bare : Place → Place
  | .occupied l node => .occupied l node
  | .vacant directory name _ => .vacant directory name false

/-- The location of a place. -/
def Place.location : Place → Location
  | .occupied l _ => l
  | .vacant directory name _ => directory ++ [name]

/-- The location of a place does not depend on a slash behind it. -/
@[simp] theorem Place.location_bare (place : Place) : place.bare.location = place.location := by
  cases place <;> rfl

variable {caller : Caller} {fs : FileSystem}

/-- A walk that leads to some place leads there without steps that stay, too. -/
theorem walk_drops {links : Nat} {l : Location} {path path' : List Step} {place : Place}
    (hdrops : Drops path path') (h : walk caller fs true links l path = .ok place) :
    ∃ place', walk caller fs true links l path' = .ok place' ∧ place'.bare = place.bare := by
  simp only [walk_eq_ok_iff] at h ⊢
  induction h generalizing path' with
  | nil hnode =>
      cases hdrops
      exact ⟨_, .nil hnode, rfl⟩
  | here henter _ ih =>
      cases hdrops with
      | drop _ hrest => exact ih hrest
      | keep _ hrest =>
          obtain ⟨place', hwalks, hbare⟩ := ih hrest
          exact ⟨place', .here henter hwalks, hbare⟩
  | up henter _ ih =>
      cases hdrops with
      | drop hstays _ => simp [Step.stays] at hstays
      | keep _ hrest =>
          obtain ⟨place', hwalks, hbare⟩ := ih hrest
          exact ⟨place', .up henter hwalks, hbare⟩
  | directory hnode hkind _ ih =>
      cases hdrops with
      | drop _ hrest => exact ih hrest
      | keep _ hrest =>
          obtain ⟨place', hwalks, hbare⟩ := ih hrest
          exact ⟨place', .directory hnode hkind hwalks, hbare⟩
  | @vacant _ _ _ rest slash henter hname hnone hend =>
      cases hdrops with
      | drop hstays _ => simp [Step.stays] at hstays
      | keep _ hrest =>
          -- of what follows a vacant name, only a slash may be left out
          subst hend
          cases slash with
          | false =>
              cases hrest
              exact ⟨_, .vacant henter hname hnone rfl, rfl⟩
          | true =>
              cases hrest with
              | drop _ hnil =>
                  cases hnil
                  exact ⟨.vacant _ _ false, .vacant henter hname hnone rfl, rfl⟩
              | keep _ hnil =>
                  cases hnil
                  exact ⟨.vacant _ _ true, .vacant henter hname hnone rfl, rfl⟩
  | link _ _ _ hfollow => simp at hfollow
  | through henter hname hnode _ _ ih =>
      cases hdrops with
      | drop hstays _ => simp [Step.stays] at hstays
      | keep _ hrest =>
          obtain ⟨place', hwalks, hbare⟩ := ih (hrest.append _)
          exact ⟨place', .through henter hname hnode (.inr rfl) hwalks, hbare⟩
  | node henter hname hnode hkind _ ih =>
      cases hdrops with
      | drop hstays _ => simp [Step.stays] at hstays
      | keep _ hrest =>
          obtain ⟨place', hwalks, hbare⟩ := ih hrest
          exact ⟨place', .node henter hname hnode hkind hwalks, hbare⟩

/-- A walk to a node leads there without steps that stay, too. -/
theorem walk_drops_occupied {links : Nat} {l k : Location} {path path' : List Step} {node : Node}
    (hdrops : Drops path path')
    (h : walk caller fs true links l path = .ok (.occupied k node)) :
    walk caller fs true links l path' = .ok (.occupied k node) := by
  obtain ⟨place, hwalk, hbare⟩ := walk_drops hdrops h
  cases place with
  | occupied k' node' =>
      obtain ⟨rfl, rfl⟩ : k' = k ∧ node' = node := by simpa [Place.bare] using hbare
      exact hwalk
  | vacant => simp [Place.bare] at hbare

/-- A walk to a node that ends with a step that stays has got there before. -/
theorem walk_of_walk_stay {links : Nat} {l k : Location} {front : List Step} {s : Step} {node : Node}
    (hs : s.stays = true) (h : walk caller fs true links l (front ++ [s]) = .ok (.occupied k node)) :
    walk caller fs true links l front = .ok (.occupied k node) := by
  refine walk_drops_occupied ?_ h
  conv => rhs; rw [← List.append_nil front]
  exact Drops.append front (.drop hs .nil)

/-- A walk along a path to a node gets there also without the slash at the end of the path. -/
theorem walk_found {links : Nat} {l k : Location} {text : String} {node : Node}
    (h : walk caller fs true links l (steps text) = .ok (.occupied k node)) :
    walk caller fs true links l (found text.toList) = .ok (.occupied k node) := by
  rcases steps_eq text with hsteps | hsteps
  · rwa [hsteps] at h
  · exact walk_of_walk_stay rfl (hsteps ▸ h)

/-- A path to a node leads there by the steps of its components. -/
theorem walk_course {p : Path} {l : Location} {node : Node}
    (h : find caller fs true p = .ok (l, node)) :
    walk caller fs true maxLinks (start caller p.text) (course p) = .ok (.occupied l node) :=
  walk_drops_occupied (filter_steps p ▸ drops_filter _) (find_eq_ok_iff.1 h).2

/-- From a node at the end of a walk, every continuation goes its own way. -/
theorem exists_walk_behind {links : Nat} {l m : Location} {front : List Step} {node : Node}
    (h : walk caller fs true links l front = .ok (.occupied m node)) :
    ∃ links', ∀ follow rest, rest ≠ [] →
      walk caller fs follow links l (front ++ rest) = walk caller fs follow links' m rest := by
  rw [← List.append_nil front] at h
  obtain ⟨links', k, hend, hother⟩ := walk_append (Or.inr rfl) h
  obtain ⟨rfl, _⟩ := of_walk_nil_ok hend
  exact ⟨links', hother⟩

/-! ## Walking by names -/

/-- There is no link on the way from a location by names, up to the last of them. -/
def NoLinks (fs : FileSystem) (l names : Location) : Prop :=
  ∀ front, front <+: names → front ≠ [] → front ≠ names →
    ∀ target time, fs.get? (l ++ front) ≠ some (.link target time)

/-- A proper beginning of a single name is empty. -/
theorem eq_nil_of_prefix_singleton {front : Location} {name : String} (h : front <+: [name])
    (hne : front ≠ [name]) : front = [] := by
  rcases List.prefix_concat_iff.1 (show front <+: [] ++ [name] from h) with heq | hnil
  · exact absurd heq hne
  · exact List.prefix_nil.1 hnil

/-- Without links on the way, names lead to the location that they make up. -/
theorem walk_names {follow : Bool} {links : Nat} {l : Location} {names : List String}
    {place : Place} (hne : names ≠ []) (hlinks : NoLinks fs l names)
    (hlast : follow = false ∨ ∀ target time, fs.get? (l ++ names) ≠ some (.link target time))
    (h : walk caller fs follow links l (names.map .name) = .ok place) :
    place.location = l ++ names := by
  induction names generalizing l with
  | nil => exact absurd rfl hne
  | cons name names ih =>
      rw [List.map_cons] at h
      rcases cases_walk_name h with ⟨hnone, slash, rfl, _⟩ | ⟨target, time, _, hnil, _, rfl⟩ |
        ⟨target, time, _, hnode, _, hfollow, _⟩ | ⟨node, hnode, _, hrest⟩
      -- a vacant name is the last one, and a link is not followed before the last one
      · obtain ⟨henter, hname⟩ := of_walk_name_ok h
        rw [walk_name henter hname, hnone] at h
        cases names with
        | nil => rfl
        | cons other names => simp at h
      · obtain rfl : names = [] := by simpa using hnil
        rfl
      · by_cases hnil : names = []
        · subst hnil
          rcases hlast with hlast | hlast
          · simp [hlast] at hfollow
          · exact absurd hnode (hlast target time)
        · refine absurd hnode (hlinks [name] ⟨names, rfl⟩ (by simp) ?_ target time)
          simpa using Ne.symm hnil
      · by_cases hnil : names = []
        · subst hnil
          rw [List.map_nil, walk_eq] at hrest
          simp only [hnode] at hrest
          obtain rfl := Except.ok.inj hrest
          rfl
        · have happend (front : List String) : l ++ [name] ++ front = l ++ name :: front := by simp
          rw [← happend]
          refine ih hnil (fun front hfront hfrontNe hother => ?_) ?_ hrest
          · rw [happend]
            exact hlinks (name :: front) (List.cons_prefix_cons.2 ⟨rfl, hfront⟩) (by simp)
              (by simpa using hother)
          · rw [happend]
            exact hlast

/-! ## The entry that a path is about -/

/-- The steps of a path to an entry. -/
theorem eq_of_cutLast_name {path front : List Step} {text : String} {slash : Bool}
    (h : cutLast path = (front, .name text slash)) :
    path = front ++ .name text :: if slash then [.directory] else [] := by
  rw [cutLast] at h
  split at h
  · next text' front' hreverse =>
      obtain ⟨rfl, rfl, rfl⟩ : front'.reverse = front ∧ text' = text ∧ true = slash := by
        simpa using h
      rw [← List.reverse_reverse path, hreverse]
      simp
  · simp at h
  · next text' front' hreverse =>
      obtain ⟨rfl, rfl, rfl⟩ : front'.reverse = front ∧ text' = text ∧ false = slash := by
        simpa using h
      rw [← List.reverse_reverse path, hreverse]
      simp
  · simp at h
  · simp at h

/-- The steps of a path to an entry, up to steps that stay. -/
theorem cutLast_name {path front : List Step} {text : String} {slash : Bool}
    (h : cutLast path = (front, .name text slash)) :
    path.filter (!·.stays) = front.filter (!·.stays) ++ [.name text] := by
  rw [eq_of_cutLast_name h]
  cases slash <;> simp [Step.stays]

/-- An entry is located where the steps in front of its name lead, in a directory that the caller may
enter. -/
theorem locateEntry_eq_name_iff {p : Path} {l : Location} {text : String} {slash : Bool} :
    locateEntry caller fs p = .ok (l, .name text slash) ↔ checkText p.text = .ok () ∧
      ∃ front node, cutLast (steps p.text) = (front, .name text slash) ∧
        walk caller fs true maxLinks (start caller p.text) front = .ok (.occupied l node) ∧
        enter caller fs l = .ok () ∧ ¬ maxName < text.utf8ByteSize := by
  constructor
  · intro h
    obtain ⟨_, htext, h⟩ := Run.of_bind_ok h
    rcases hcut : cutLast (steps p.text) with ⟨front, ending⟩
    rw [hcut] at h
    obtain ⟨place, hwalk, h⟩ := Run.of_bind_ok h
    cases place with
    | vacant => exact absurd h Run.throw_ne_ok
    | occupied k node =>
        obtain ⟨_, henter, h⟩ := Run.of_bind_ok h
        cases ending with
        | directory step => simp [pure, Except.pure] at h
        | name text' slash' =>
            obtain ⟨hname, h⟩ := Run.of_check_ok h
            obtain ⟨rfl, rfl, rfl⟩ : k = l ∧ text' = text ∧ slash' = slash := by
              simpa [bind, Except.bind, pure, Except.pure] using h
            exact ⟨htext, front, node, rfl, hwalk, henter, hname⟩
  · rintro ⟨htext, front, node, hcut, hwalk, henter, hname⟩
    rw [locateEntry, htext, hcut]
    simp [bind, Except.bind, pure, Except.pure, hwalk, henter, hname]

/-- The directory of an entry is where the components in front of the last one lead. -/
theorem of_locateEntry_name {p : Path} {l : Location} {text : String} {slash : Bool}
    (h : locateEntry caller fs p = .ok (l, .name text slash)) :
    ∃ front node, course p = front ++ [.name text] ∧
      walk caller fs true maxLinks (start caller p.text) front = .ok (.occupied l node) ∧
      enter caller fs l = .ok () ∧ Path.IsName text := by
  obtain ⟨-, front, node, hcut, hwalk, henter, -⟩ := locateEntry_eq_name_iff.1 h
  have hcourse := cutLast_name hcut
  rw [filter_steps] at hcourse
  refine ⟨_, node, hcourse, walk_drops_occupied (drops_filter front) hwalk, henter, ?_⟩
  refine @isName_of_mem_steps p.text _ ?_
  have hmem : Step.name text ∈ (steps p.text).filter (!·.stays) := by
    rw [filter_steps, hcourse]
    exact List.mem_append_right _ (List.mem_singleton_self _)
  exact (List.mem_filter.1 hmem).1

/-! ## Paths behind and above others -/

/-- A path whose components are those of another one and names behind them. -/
def Behind (base : Path) (names : List String) (p : Path) : Prop :=
  p.components = base.components ++ names.map .normal

/-- A path behind another one is absolute when that one is. -/
theorem Behind.isAbsolute {base p : Path} {names : List String} (h : Behind base names p) :
    p.isAbsolute = base.isAbsolute := by
  rw [Bool.eq_iff_iff, Path.isAbsolute_iff, Path.isAbsolute_iff, h]
  cases base.components with
  | nil => cases names <;> simp
  | cons c components => simp

/-- A path is behind itself by no names. -/
theorem behind_self (p : Path) : Behind p [] p :=
  (List.append_nil _).symm

/-- A path behind a path that is itself behind another one is behind that one. -/
theorem Behind.trans {base p q : Path} {names more : List String} (h : Behind base names p)
    (hq : Behind p more q) : Behind base (names ++ more) q := by
  rw [Behind, hq, h, List.map_append, List.append_assoc]

/-- A path behind one that is not empty is not empty. -/
theorem Behind.text_ne_empty {base p : Path} {names : List String} (h : Behind base names p)
    (hbase : base.text ≠ "") : p.text ≠ "" := by
  intro hempty
  obtain ⟨text⟩ := p
  obtain rfl : text = "" := hempty
  have hnil : Path.components ⟨""⟩ = [] := by decide
  rw [Behind, hnil] at h
  exact Path.components_ne_nil hbase (List.append_eq_nil_iff.1 h.symm).1

/-- A path joined with a name is behind it by that name. -/
theorem behind_join {p : Path} {name : String} (hp : p.text ≠ "") (hname : Path.IsName name) :
    Behind p [name] (p.join ⟨name⟩) :=
  Path.components_join_name hp hname

/-- The part of a path below another one, joined to a third one, is behind that one by the same
names. -/
theorem Behind.join_below {base p rest other : Path} {names : List String} (h : Behind base names p)
    (hbase : base.text ≠ "") (hother : other.text ≠ "") (hrest : p.below? base = some rest) :
    Behind other names (other.join rest) := by
  obtain ⟨hcomponents, hrelative⟩ := Path.components_below? hbase hrest
  rw [h, List.append_cancel_left_eq] at hcomponents
  have hdot : rest.components.head? ≠ some .current := by
    rw [← hcomponents]
    cases names <;> simp
  rw [Behind, (Path.components_join hother hrelative hdot).1, hcomponents]

/-- The course of a path behind another one goes on by the names. -/
theorem Behind.course_eq {base p : Path} {names : List String} (h : Behind base names p) :
    course p = course base ++ names.map .name := by
  rw [course, h, List.filterMap_append, filterMap_step?_normal]
  rfl

/-- Where a walk ends that goes on by names. -/
theorem eq_of_walk_names {links : Nat} {start l k : Location} {front : List Step}
    {names : List String} {node found : Node}
    (hfront : walk caller fs true links start front = .ok (.occupied l node))
    (hlinks : ∀ front, front <+: names → front ≠ [] →
      ∀ target time, fs.get? (l ++ front) ≠ some (.link target time))
    (hwalk : walk caller fs true links start (front ++ names.map .name) = .ok (.occupied k found)) :
    k = l ++ names := by
  by_cases hne : names = []
  · subst hne
    rw [List.map_nil, List.append_nil, hfront] at hwalk
    obtain ⟨rfl, _⟩ : l = k ∧ node = found := by simpa using hwalk
    exact (List.append_nil l).symm
  · obtain ⟨links', hbehind⟩ := exists_walk_behind hfront
    rw [hbehind true _ (by simpa using hne)] at hwalk
    exact walk_names hne (fun front hfront hfrontNe _ => hlinks front hfront hfrontNe)
      (Or.inr (hlinks names List.prefix_rfl hne)) hwalk

/-- Where there are no links on the way to a name, there are none on the way in front of it either. -/
theorem NoLinks.front {l front : Location} {last : String} (h : NoLinks fs l (front ++ [last])) :
    ∀ other, other <+: front → other ≠ [] →
      ∀ target time, fs.get? (l ++ other) ≠ some (.link target time) := by
  intro other hother hne
  refine h other (hother.trans (List.prefix_append _ _)) hne ?_
  rintro rfl
  have hlength := hother.length_le
  rw [List.length_append, List.length_singleton] at hlength
  omega

/-- The entry that a path behind another one is about. -/
theorem Behind.entry_eq {base p : Path} {names : List String} (h : Behind base names p)
    {l k : Location} {node : Node} {text : String} {slash : Bool} (hne : names ≠ [])
    (hbase : find caller fs true base = .ok (l, node)) (hlinks : NoLinks fs l names)
    (hentry : locateEntry caller fs p = .ok (k, .name text slash)) : k ++ [text] = l ++ names := by
  obtain ⟨front, last, rfl⟩ := (List.eq_nil_or_concat' names).resolve_left hne
  obtain ⟨steps, above, hcourse, hwalk, henter, _⟩ := of_locateEntry_name hentry
  rw [h.course_eq, List.map_append, ← List.append_assoc] at hcourse
  obtain ⟨rfl, hlast⟩ := List.append_inj' hcourse rfl
  obtain rfl : last = text := by simpa using hlast
  rw [start_eq h.isAbsolute] at hwalk
  rw [eq_of_walk_names (walk_course hbase) hlinks.front hwalk, List.append_assoc]

/-- A path whose steps lead to a location and go on from there by names. -/
def Toward (caller : Caller) (fs : FileSystem) (l names : Location) (p : Path) : Prop :=
  ∃ front node, course p = front ++ names.map .name ∧
    walk caller fs true maxLinks (start caller p.text) front = .ok (.occupied l node)

/-- A path leads toward the location that it is found at. -/
theorem toward_of_find {p : Path} {l : Location} {node : Node}
    (h : find caller fs true p = .ok (l, node)) : Toward caller fs l [] p :=
  ⟨course p, node, (List.append_nil _).symm, walk_course h⟩

/-- A path behind one that leads toward a location does so, too, by the names in addition. -/
theorem Toward.behind {p q : Path} {l names more : Location} (h : Toward caller fs l names p)
    (hq : Behind p more q) : Toward caller fs l (names ++ more) q := by
  obtain ⟨front, node, hcourse, hwalk⟩ := h
  refine ⟨front, node, ?_, start_eq hq.isAbsolute ▸ hwalk⟩
  rw [hq.course_eq, hcourse, List.map_append, List.append_assoc]

/-- Where a path toward names leads. -/
theorem Toward.location_eq {p : Path} {l names : Location} {place : Place}
    (h : Toward caller fs l names p) (hlinks : NoLinks fs l names)
    (hlast : names ≠ [] → ∀ target time, fs.get? (l ++ names) ≠ some (.link target time))
    (hlocate : locate caller fs true p = .ok place) : place.location = l ++ names := by
  obtain ⟨front, node, hcourse, hfront⟩ := h
  obtain ⟨_, _, hwalk⟩ := Run.of_bind_ok hlocate
  obtain ⟨place', hwalk', hbare⟩ := walk_drops (filter_steps p ▸ drops_filter _) hwalk
  rw [← Place.location_bare, ← hbare, Place.location_bare]
  rw [hcourse] at hwalk'
  by_cases hne : names = []
  · subst hne
    rw [List.map_nil, List.append_nil, hfront] at hwalk'
    obtain rfl := Except.ok.inj hwalk'
    exact (List.append_nil l).symm
  · obtain ⟨links, hbehind⟩ := exists_walk_behind hfront
    rw [hbehind true _ (by simpa using hne)] at hwalk'
    exact walk_names hne hlinks (Or.inr (hlast hne)) hwalk'

/-- The entry of a path above a path toward names is there already, or it is one of these names. -/
theorem Toward.entry {p q : Path} {l k names : Location} {text : String} {slash : Bool}
    (h : Toward caller fs l names p) (habsolute : q.isAbsolute = p.isAbsolute)
    (hq : q.components <+: p.components) (hlinks : NoLinks fs l names)
    (hentry : locateEntry caller fs q = .ok (k, .name text slash)) :
    (∃ node, fs.get? (k ++ [text]) = some node) ∨
      ∃ front, front <+: names ∧ front ≠ [] ∧ k ++ [text] = l ++ front := by
  obtain ⟨first, node, hcourse, hfirst⟩ := h
  obtain ⟨above, directory, hq', habove, _, _⟩ := of_locateEntry_name hentry
  rw [start_eq habsolute] at habove
  have hprefix : above ++ [.name text] <+: first ++ names.map .name := by
    rw [← hq', ← hcourse]
    exact hq.filterMap _
  by_cases hup : above ++ [.name text] <+: first
  · -- the steps to the location go through this entry
    obtain ⟨more, rfl⟩ := hup
    obtain ⟨links, hbehind⟩ := exists_walk_behind habove
    rw [List.append_assoc, hbehind true _ (by simp)] at hfirst
    rcases cases_walk_name hfirst with ⟨_, _, hplace, _⟩ | ⟨_, _, hnode, _⟩ | ⟨_, _, _, hnode, _⟩ |
      ⟨other, hnode, _⟩
    · simp at hplace
    · exact .inl ⟨_, hnode⟩
    · exact .inl ⟨_, hnode⟩
    · exact .inl ⟨other, hnode⟩
  · have hdown := (List.prefix_or_prefix_of_prefix hprefix (List.prefix_append first _)).resolve_left hup
    obtain ⟨middle, rfl⟩ := (List.prefix_concat_iff.1 hdown).resolve_left fun heq =>
      hup (heq ▸ List.prefix_rfl)
    rw [List.append_assoc, List.prefix_append_right_inj, ← List.singleton_append] at hprefix
    obtain ⟨front, hfront, hmap⟩ := List.prefix_map_iff.1 hprefix
    obtain ⟨others, last, rfl, rfl, hlast⟩ := List.map_eq_append_iff.1 hmap.symm
    obtain ⟨last, rfl, rfl⟩ : ∃ name, last = [name] ∧ name = text := by simpa using hlast
    right
    refine ⟨others ++ [last], hfront, by simp, ?_⟩
    rw [eq_of_walk_names hfirst (fun other hother hne => ?_) habove, List.append_assoc]
    refine hlinks other (hother.trans ((List.prefix_append _ _).trans hfront)) hne ?_
    rintro rfl
    have hlength := hfront.length_le
    have hshort := hother.length_le
    rw [List.length_append, List.length_singleton] at hlength
    omega

/-- Where a path behind another one leads. -/
theorem Behind.location_eq {base p : Path} {names : List String} (h : Behind base names p)
    {l : Location} {node : Node} {place : Place}
    (hbase : find caller fs true base = .ok (l, node)) (hlinks : NoLinks fs l names)
    (hlast : ∀ target time, fs.get? (l ++ names) ≠ some (.link target time))
    (hlocate : locate caller fs true p = .ok place) : place.location = l ++ names :=
  ((toward_of_find hbase).behind h).location_eq hlinks (fun _ => hlast) hlocate

/-- The path that is made of another one and names is behind that one. -/
theorem behind_along {base : Path} {names : List String} (hbase : base.text ≠ "")
    (hnames : ∀ name ∈ names, Path.IsName name) : Behind base names (base.along names) :=
  (Path.components_along hbase hnames).1

/-- Where a path joined with names leads when there are no links on the way. -/
theorem eq_of_find_along {base : Path} {names : List String} {l k : Location} {node other : Node}
    (hnames : ∀ name ∈ names, Path.IsName name)
    (hbase : find caller fs true base = .ok (l, node)) (hlinks : NoLinks fs l names)
    (hne : names ≠ []) (h : find caller fs false (base.along names) = .ok (k, other)) :
    k = l ++ names := by
  obtain ⟨front, last, rfl⟩ := (List.eq_nil_or_concat' names).resolve_left hne
  have hbaseText := (of_checkText_ok (find_eq_ok_iff.1 hbase).1).1
  have hlast := hnames last (List.mem_append_right front (List.mem_singleton_self last))
  have hfront : ∀ name ∈ front, Path.IsName name := fun name hname =>
    hnames name (List.mem_append_left _ hname)
  have habove := (Path.components_along hbaseText hfront).2
  have hwalk := (find_eq_ok_iff.1 h).2
  rw [Path.along_concat, steps_join habove hlast, start_join habove hlast.no_slash] at hwalk
  obtain ⟨links, m, hend, hother⟩ := walk_append (Or.inl (by simp)) hwalk
  -- the place in front of the last name is a directory, so that the walk could stay there
  obtain ⟨henter, _⟩ := of_walk_name_ok hend
  obtain ⟨directory, hdirectory, _⟩ := directory_of_enter henter
  have hhere : walk caller fs true maxLinks (start caller (base.along front).text)
      (found (base.along front).text.toList ++ [.here]) = .ok (.occupied m directory) := by
    rw [hother true [.here] (by simp), walk_eq]
    simp only [henter, bind, Except.bind]
    rw [walk_eq]
    simp only [hdirectory]
  have hcourse := walk_drops_occupied (drops_filter _) hhere
  have hthin : (found (base.along front).text.toList ++ [Step.here]).filter (!·.stays) =
      course base ++ front.map .name := by
    rw [List.filter_append, filter_found, (behind_along hbaseText hfront).course_eq]
    exact List.append_nil _
  rw [hthin, start_eq (behind_along hbaseText hfront).isAbsolute] at hcourse
  obtain rfl := eq_of_walk_names (walk_course hbase) hlinks.front hcourse
  rcases cases_walk_name hend with ⟨_, _, hplace, _⟩ | ⟨_, _, _, _, _, hplace⟩ |
    ⟨_, _, _, _, _, hfollow, _⟩ | ⟨_, _, _, hend⟩
  · simp at hplace
  · rw [(Place.occupied.inj hplace).1, List.append_assoc]
  · simp at hfollow
  · rw [← (of_walk_nil_ok hend).1, List.append_assoc]

/-- The entry of a path above another one, which leads to a node, is there. -/
theorem entry_above {base q : Path} {l k : Location} {node : Node} {text : String}
    {slash : Bool} (habsolute : q.isAbsolute = base.isAbsolute)
    (hcomponents : q.components <+: base.components)
    (hbase : find caller fs true base = .ok (l, node))
    (hentry : locateEntry caller fs q = .ok (k, .name text slash)) :
    ∃ entry, fs.get? (k ++ [text]) = some entry := by
  refine ((toward_of_find hbase).entry habsolute hcomponents ?_ hentry).resolve_right ?_
  · rintro front hfront hne
    exact absurd (List.prefix_nil.1 hfront) hne
  · rintro ⟨front, hfront, hne, _⟩
    exact hne (List.prefix_nil.1 hfront)

end Lookup

end RpmRelease
