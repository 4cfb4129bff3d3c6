import Mathlib.Data.List.Infix
import RpmRelease.Proofs.FileSystem.Growing
import RpmRelease.Proofs.FileSystem.Inside

/-!
# Paths without links on the way

Where no link stands on the way, a path leads where its components say: a name leads down, and two
dots lead up.  The locations that it passes are then known before anything is created.  Creating the
directories on the way adds directories at some of these locations and changes nothing else.
-/

set_option autoImplicit false

namespace RpmRelease

variable {caller : Caller} {fs fs' : FileSystem}

namespace Lookup

/-! ## Where steps lead -/

/-- Where a step leads when no link stands there. -/
def Step.next (l : Location) : Step → Location
  | .here => l
  | .directory => l
  | .up => l.dropLast
  | .name text => l ++ [text]

/-- Where steps lead from a location when there are no links on the way. -/
def onward (l : Location) (path : List Step) : Location :=
  path.foldl Step.next l

/-- No link stands where steps lead on their way. -/
def Unlinked (fs : FileSystem) (l : Location) (path : List Step) : Prop :=
  ∀ front, front <+: path → front ≠ [] →
    ∀ target time, fs.get? (onward l front) ≠ some (.link target time)

/-- One step more leads on by this step. -/
theorem onward_concat (l : Location) (path : List Step) (s : Step) :
    onward l (path ++ [s]) = s.next (onward l path) := by
  rw [onward, List.foldl_append]
  rfl

/-- Where no links are on a way, there are none behind its first step. -/
theorem Unlinked.tail {l : Location} {s : Step} {path : List Step} (h : Unlinked fs l (s :: path)) :
    Unlinked fs (s.next l) path :=
  fun front hfront _ => h (s :: front) (List.cons_prefix_cons.2 ⟨rfl, hfront⟩) (by simp)

/-- Where no links are on a way, there are none on its beginning. -/
theorem Unlinked.front {l : Location} {path front : List Step} (h : Unlinked fs l path)
    (hfront : front <+: path) : Unlinked fs l front :=
  fun other hother => h other (hother.trans hfront)

/-- Without links on the way, a walk leads where its steps say. -/
theorem Walks.location_eq {follow : Bool} {links : Nat} {l : Location} {path : List Step}
    {place : Place} (h : Walks caller fs follow links l path place) (hlinks : Unlinked fs l path) :
    place.location = onward l path := by
  have hfirst {l : Location} {name : String} {rest : List Step}
      (hlinks : Unlinked fs l (.name name :: rest)) (target : String) (time : Int) :
      fs.get? (l ++ [name]) ≠ some (.link target time) :=
    hlinks [.name name] ⟨rest, rfl⟩ (by simp) target time
  induction h with
  | nil => rfl
  | here _ _ ih | up _ _ ih | directory _ _ _ ih => exact ih hlinks.tail
  | @vacant _ _ _ _ slash _ _ _ hrest =>
    subst hrest
    cases slash <;> rfl
  | link => rfl
  | through _ _ hnode _ _ _ => exact absurd hnode (hfirst hlinks _ _)
  | node _ _ _ _ _ ih => exact ih hlinks.tail

/-! ## The locations that a path passes -/

/-- A location that a path passes on its way, its end included, when there are no links. -/
def Passes (caller : Caller) (p : Path) (l : Location) : Prop :=
  ∃ front, front <+: course p ∧ front ≠ [] ∧ onward (start caller p.text) front = l

/-- Where a path ends when there are no links on the way. -/
def destined (caller : Caller) (p : Path) : Location :=
  onward (start caller p.text) (course p)

/-- There are no links where a path passes. -/
def Plain (caller : Caller) (fs : FileSystem) (p : Path) : Prop :=
  ∀ l, Passes caller p l → ∀ target time, fs.get? l ≠ some (.link target time)

section Plain

variable {p q : Path}

/-- A path is plain when no link stands where a beginning of its course leads. -/
theorem plain_iff : Plain caller fs p ↔ ∀ front ∈ (course p).inits, front ≠ [] →
    (fs.get? (onward (start caller p.text) front)).map Node.kind ≠ some .link := by
  constructor
  · intro h front hfront hne hlink
    obtain ⟨node, hnode, hkind⟩ := Option.map_eq_some_iff.1 hlink
    cases node with
    | link target time =>
      exact h _ ⟨front, (List.mem_inits _ _).1 hfront, hne, rfl⟩ target time hnode
    | directory => simp [Node.kind] at hkind
    | file => simp [Node.kind] at hkind
  · rintro h l ⟨front, hfront, hne, rfl⟩ target time hlink
    apply h front ((List.mem_inits _ _).2 hfront) hne
    rw [hlink]
    rfl

/-- Whether there are links where a path passes can be computed. -/
instance : Decidable (Plain caller fs p) :=
  decidable_of_iff _ plain_iff.symm

/-- No links stand on the course of a plain path. -/
theorem Plain.unlinked (h : Plain caller fs p) :
    Unlinked fs (start caller p.text) (course p) :=
  fun front hfront hne => h _ ⟨front, hfront, hne, rfl⟩

/-- A path above another one passes no more than that. -/
theorem Passes.of_above {l : Location} (h : Passes caller q l)
    (habsolute : q.isAbsolute = p.isAbsolute) (hcomponents : q.components <+: p.components) :
    Passes caller p l := by
  obtain ⟨front, hfront, hne, hl⟩ := h
  exact ⟨front, hfront.trans (hcomponents.filterMap _), hne, start_eq habsolute ▸ hl⟩

/-- A path above a plain one is plain. -/
theorem Plain.above (h : Plain caller fs p) (habsolute : q.isAbsolute = p.isAbsolute)
    (hcomponents : q.components <+: p.components) : Plain caller fs q :=
  fun l hl => h l (hl.of_above habsolute hcomponents)

/-- A path without links on the way leads where its components say. -/
theorem Plain.location_eq {place : Place} (h : Plain caller fs p)
    (hlocate : locate caller fs true p = .ok place) : place.location = destined caller p := by
  obtain ⟨_, _, hwalk⟩ := Run.of_bind_ok hlocate
  obtain ⟨place', hwalk', hbare⟩ := walk_drops (filter_steps p ▸ drops_filter _) hwalk
  rw [← Place.location_bare, ← hbare, Place.location_bare]
  exact (walks_of_walk hwalk').location_eq h.unlinked

/-- The entry that a path is about is the last location that the path passes. -/
theorem Plain.entry_eq {l : Location} {text : String} {slash : Bool} (h : Plain caller fs p)
    (hentry : locateEntry caller fs p = .ok (l, .name text slash)) :
    l ++ [text] = destined caller p ∧ Passes caller p (l ++ [text]) := by
  obtain ⟨front, node, hcourse, hwalk, -, -⟩ := of_locateEntry_name hentry
  have hfront : front <+: course p := hcourse ▸ List.prefix_append _ _
  have hl : l = onward (start caller p.text) front :=
    (walks_of_walk hwalk).location_eq (h.unlinked.front hfront)
  have hend : l ++ [text] = onward (start caller p.text) (course p) := by
    rw [hcourse, onward_concat, ← hl]
    rfl
  exact ⟨hend, course p, List.prefix_rfl, by simp [hcourse], hend.symm⟩

end Plain

end Lookup

open Lookup (Passes Plain)

/-! ## Directories on the way -/

/-- Directories have been created where a path passes, and nothing else has changed. -/
structure Paved (caller : Caller) (p : Path) (before after : FileSystem) : Prop where
  wellFormed : after.WellFormed
  within : before.Within after
  added : ∀ l node, after.get? l = some node → before.get? l = some node ∨
    node = .directory Mode.directory caller.now ∧ Passes caller p l

namespace Paved

variable {p : Path}

/-- Where nothing has been created, everything is as it was. -/
theorem refl (wf : fs.WellFormed) : Paved caller p fs fs where
  wellFormed := wf
  within := .refl fs
  added := fun _ _ hnode => .inl hnode

/-- A plain path is plain after directories were created on its way. -/
theorem plain (h : Paved caller p fs fs') (hplain : Plain caller fs p) : Plain caller fs' p := by
  intro l hl target time hlink
  rcases h.added l _ hlink with hbefore | ⟨hdirectory, -⟩
  · exact hplain l hl target time hbefore
  · simp at hdirectory

/-- Where something other than a directory stands, it stood before. -/
theorem get?_of_kind {l : Location} {node : Node} (h : Paved caller p fs fs')
    (hnode : fs'.get? l = some node) (hkind : node.kind ≠ .directory) : fs.get? l = some node := by
  refine (h.added l node hnode).resolve_right ?_
  rintro ⟨rfl, -⟩
  exact hkind rfl

/-- One more directory is created on the way. -/
theorem makeDirectory {q : Path} {fs'' : FileSystem} (h : Paved caller p fs fs')
    (hplain : Plain caller fs p) (habsolute : q.isAbsolute = p.isAbsolute)
    (hcomponents : q.components <+: p.components) (hmake : fs'.makeDirectory caller q = .ok fs'') :
    Paved caller p fs fs'' := by
  obtain ⟨l, name, slash, hentry, hvacant, puts, rfl⟩ :=
    FileSystem.puts_of_makeDirectory h.wellFormed hmake
  obtain ⟨-, hpasses⟩ := ((h.plain hplain).above habsolute hcomponents).entry_eq hentry
  refine ⟨h.wellFormed.put puts, h.within.trans (FileSystem.within_set hvacant _), ?_⟩
  intro k node hnode
  rw [FileSystem.get?_set] at hnode
  split at hnode
  · next hk =>
    obtain rfl := Option.some.inj hnode
    exact .inr ⟨rfl, hk ▸ hpasses.of_above habsolute hcomponents⟩
  · exact h.added k node hnode

end Paved

namespace Storage

variable {p q : Path}

/-- Creating the directories of a path above another one creates them where that one passes. -/
theorem paved_createDirectories (wf : fs.WellFormed) (hplain : Plain caller fs p)
    (habsolute : q.isAbsolute = p.isAbsolute) (hcomponents : q.components <+: p.components) :
    Paved caller p fs ((createDirectories q).exec caller fs).2 := by
  have hmakes : Makes (fun before after => Paved caller p fs before → Paved caller p fs after) caller
      fs (createDirectories q) fun _ _ => True := by
    refine makes_createAncestors fun other hother fs₁ fs₂ _ hmake hpaved => ?_
    obtain ⟨hotherComponents, hotherAbsolute⟩ := Path.components_of_mem_ancestors hother
    exact hpaved.makeDirectory hplain (hotherAbsolute.trans habsolute)
      (hotherComponents.trans hcomponents) hmake
  exact hmakes.keeps (.refl wf)

/-- A path whose directories have been created leads to a directory, where its components say. -/
theorem find_of_createDirectories_plain (wf : fs.WellFormed) (hplain : Plain caller fs p)
    (hp : p.text ≠ "") (h : (createDirectories p).exec caller fs = (.ok (), fs')) :
    ∃ node, Lookup.find caller fs' true p = .ok (Lookup.destined caller p, node) ∧
      node.kind = .directory := by
  obtain ⟨l, node, hfind, hkind⟩ := find_of_createDirectories hp h
  have hpaved := paved_createDirectories wf hplain rfl List.prefix_rfl
  rw [h] at hpaved
  have hl : l = Lookup.destined caller p :=
    (hpaved.plain hplain).location_eq (Lookup.locate_of_find hfind)
  exact ⟨node, hl ▸ hfind, hkind⟩

end Storage

end RpmRelease
