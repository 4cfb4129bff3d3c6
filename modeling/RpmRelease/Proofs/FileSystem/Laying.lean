import Mathlib.Data.Set.Insert
import RpmRelease.Proofs.FileSystem.Growing
import RpmRelease.Proofs.FileSystem.Relisting
import RpmRelease.Proofs.Manifest.Copying

/-!
# Trees laid out in an empty place

A place is empty when nothing stands there but perhaps a directory without entries.  Copying trees
into it adds directories and copies, and changes nothing that is there, as long as nothing is put where
a copy stands already or below it.  `Laid` is what holds of the file system on the way, with the
locations of all copies so far.  `Lays` is what a program adds: its copies, as many as it counts.
-/

set_option autoImplicit false

namespace RpmRelease

open Lookup (Behind NoLinks Toward)
open Relation (ReflTransGen)

variable {caller : Caller} {start fs fs' : FileSystem} {place : Location} {done : Set Location}

/-- A path leads toward a location when it did with fewer nodes. -/
theorem Lookup.Toward.within {l names : Location} {p : Path} (h : Toward caller fs l names p)
    (hwithin : fs.Within fs') : Toward caller fs' l names p := by
  obtain ⟨front, node, hcourse, hwalk⟩ := h
  exact ⟨front, node, hcourse, Lookup.walk_within hwithin hwalk⟩

namespace FileSystem

/-- At a location there is a directory without entries, or nothing. -/
def Bare (fs : FileSystem) (place : Location) : Prop :=
  ∀ rest node, fs.get? (place ++ rest) = some node → rest = [] ∧ node.kind = .directory

/-- Whatever was not there before stands at a place, below it or above it. -/
def Grown (place : Location) (start fs : FileSystem) : Prop :=
  ∀ l node, fs.get? l = some node → start.get? l = some node ∨ place <+: l ∨ l <+: place

/-- What a copy of the tree at one location, put at another one, consists of, and where. -/
def image (fs : FileSystem) (source target : Location) : Set (Location × Node) :=
  {x | ∃ rest, x.1 = target ++ rest ∧ fs.get? (source ++ rest) = some x.2}

/-- What grows at and around an empty place is not below a location that is not above the place. -/
theorem Grown.get?_append (grown : Grown place start fs) (hwithin : start.Within fs)
    (bare : start.Bare place) {l : Location} {node : Node} (hnode : start.get? l = some node)
    (apart : ¬ l <+: place) (rest : Location) : fs.get? (l ++ rest) = start.get? (l ++ rest) := by
  cases hthere : fs.get? (l ++ rest) with
  | none =>
      cases hbefore : start.get? (l ++ rest) with
      | none => rfl
      | some other => simp [hwithin _ other hbefore] at hthere
  | some other =>
      rcases grown _ other hthere with hbefore | hbelow | habove
      · exact hbefore.symm
      -- what is below the place is below the location only if the location is
      · rcases List.prefix_or_prefix_of_prefix hbelow (List.prefix_append l rest) with ⟨more, rfl⟩ | hl
        · obtain ⟨rfl, _⟩ := bare more node hnode
          exact absurd ⟨[], by simp⟩ apart
        · exact absurd hl apart
      · exact absurd ((List.prefix_append l rest).trans habove) apart

/-- What is no directory is copied alone. -/
theorem image_of_leaf (wf : fs.WellFormed) {source : Location} {node : Node} (target : Location)
    (hnode : fs.get? source = some node) (hkind : node.kind ≠ .directory) :
    fs.image source target = {(target, node)} := by
  ext ⟨l, other⟩
  constructor
  · rintro ⟨rest, hl, hother⟩
    by_cases hrest : rest = []
    · subst hrest
      simp only [List.append_nil] at hl hother
      rw [hnode] at hother
      exact Prod.ext hl (Option.some.inj hother).symm
    · obtain ⟨directory, hdirectory, hdirectoryKind⟩ :=
        wf.directory_above hother (List.prefix_append source rest) (by simpa using hrest)
      rw [hnode] at hdirectory
      exact absurd (Option.some.inj hdirectory ▸ hdirectoryKind) hkind
  · rintro hx
    obtain ⟨rfl, rfl⟩ := Prod.mk.inj hx
    exact ⟨[], by simp, by simpa using hnode⟩

/-- A directory is copied with its entries. -/
theorem image_eq_union (wf : fs.WellFormed) {source : Location} {node : Node} (target : Location)
    (hnode : fs.get? source = some node) : fs.image source target = {(target, node)} ∪
      {x | ∃ entry ∈ fs.children source, x ∈ fs.image (source ++ [entry.1]) (target ++ [entry.1])} := by
  ext ⟨l, other⟩
  constructor
  · rintro ⟨rest, hl, hother⟩
    cases rest with
    | nil =>
        simp only [List.append_nil] at hl hother
        rw [hnode] at hother
        exact .inl (Prod.ext hl (Option.some.inj hother).symm)
    | cons name rest =>
        obtain ⟨entry, hentry, _⟩ := wf.exists_of_append hother
        refine .inr ⟨(name, entry), mem_children.2 hentry, rest, ?_, ?_⟩
        · simpa using hl
        · simpa using hother
  · rintro (hx | ⟨entry, _, rest, hl, hother⟩)
    · obtain ⟨rfl, rfl⟩ := Prod.mk.inj hx
      exact ⟨[], by simp, by simpa using hnode⟩
    · exact ⟨entry.1 :: rest, by simpa using hl, by simpa using hother⟩

/-- A bare place has no leaves. -/
theorem leaves_eq_nil (bare : fs.Bare place) : fs.leaves place = [] := by
  refine List.eq_nil_iff_forall_not_mem.2 ?_
  rintro ⟨rest, node⟩ hmem
  obtain ⟨hne, hnode, _⟩ := mem_leaves.1 hmem
  exact hne (bare rest node hnode).1

end FileSystem

/-- What has been laid out in a place: beside what was there at the start there are directories, and
copies at some locations. -/
structure Laid (place : Location) (start : FileSystem) (done : Set Location) (fs : FileSystem) :
    Prop where
  wellFormed : fs.WellFormed
  within : start.Within fs
  grown : FileSystem.Grown place start fs
  leaf : ∀ l node, fs.get? l = some node → node.kind ≠ .directory →
    start.get? l = some node ∨ l ∈ done

/-- Nothing but directories is added to what has been laid out. -/
structure Deepens (place : Location) (start : FileSystem) (done : Set Location)
    (fs fs' : FileSystem) : Prop where
  laid : Laid place start done fs'
  within : fs.Within fs'
  leaves : (fs'.leaves place).length = (fs.leaves place).length

/-- Directories that are added one after the other only add directories to what has been laid out. -/
theorem Deepens.of_changes (laid : Laid place start done fs)
    (h : ReflTransGen (Deepens place start done) fs fs') : Deepens place start done fs fs' := by
  induction h with
  | refl => exact ⟨laid, .refl fs, rfl⟩
  | tail _ hlast ih =>
      exact ⟨hlast.laid, ih.within.trans hlast.within, hlast.leaves.trans ih.leaves⟩

/-- A path leads to a directory in a place. -/
structure Receives (caller : Caller) (fs : FileSystem) (place : Location) (base : Path) (l : Location) :
    Prop where
  inPlace : place <+: l
  leads : ∃ directory, Lookup.find caller fs true base = .ok (l, directory) ∧
    directory.kind = .directory

namespace Receives

variable {base : Path} {l : Location}

/-- A path leads to a directory in a place when it did with fewer nodes. -/
theorem within (h : Receives caller fs place base l) (hwithin : fs.Within fs') :
    Receives caller fs' place base l := by
  obtain ⟨directory, hfind, hkind⟩ := h.leads
  exact ⟨h.inPlace, directory, Lookup.find_within hwithin hfind, hkind⟩

/-- A path to a directory in a place is not empty. -/
theorem text (h : Receives caller fs place base l) : base.text ≠ "" := by
  obtain ⟨directory, hfind, _⟩ := h.leads
  exact (Lookup.of_checkText_ok (Lookup.find_eq_ok_iff.1 hfind).1).1

/-- A path to a directory in a place leads toward its location. -/
theorem toward (h : Receives caller fs place base l) : Toward caller fs l [] base := by
  obtain ⟨directory, hfind, _⟩ := h.leads
  exact Lookup.toward_of_find hfind

/-- Everything behind a directory in a place is in the place. -/
theorem prefix_append (h : Receives caller fs place base l) (names : Location) :
    place <+: l ++ names :=
  h.inPlace.trans (List.prefix_append l names)

end Receives

/-- None of some locations is at or above one of some images. -/
def Clear (done : Set Location) (images : Set (Location × Node)) : Prop :=
  ∀ k ∈ done, ∀ x ∈ images, ¬ k <+: x.1

/-- The locations of those images that are no directories. -/
def leafLocations (images : Set (Location × Node)) : Set Location :=
  {l | ∃ node, (l, node) ∈ images ∧ node.kind ≠ .directory}

/-- What a program adds to what has been laid out: copies of some images, as many as it counts. -/
structure Lays (place : Location) (start : FileSystem) (done : Set Location)
    (images : Set (Location × Node)) (fs : FileSystem) (n : Nat) (fs' : FileSystem) : Prop where
  laid : Laid place start (done ∪ leafLocations images) fs'
  within : fs.Within fs'
  count : (fs'.leaves place).length = (fs.leaves place).length + n
  copies : ∀ x ∈ images, x.2.kind ≠ .directory →
    ∃ copy, fs'.get? x.1 = some copy ∧ copy.CopyOf x.2

namespace Laid

/-- In the beginning nothing has been laid out. -/
theorem refl (wf : start.WellFormed) : Laid place start ∅ start where
  wellFormed := wf
  within := .refl start
  grown := fun _ _ hnode => .inl hnode
  leaf := fun _ _ hnode _ => .inl hnode

/-- What is no directory in the place is one of the copies. -/
theorem mem_done (laid : Laid place start done fs) (bare : start.Bare place) {l : Location}
    {node : Node} (hl : place <+: l) (hnode : fs.get? l = some node) (hkind : node.kind ≠ .directory) :
    l ∈ done := by
  refine (laid.leaf l node hnode hkind).resolve_left fun hbefore => ?_
  obtain ⟨rest, rfl⟩ := hl
  exact hkind (bare rest node hbefore).2

/-- Names lead through no links where there were none at the start and no copy is on the way. -/
theorem ne_link (laid : Laid place start done fs) {l names : Location}
    (hstart : ∀ front, front <+: names → front ≠ [] →
      ∀ target time, start.get? (l ++ front) ≠ some (.link target time))
    (hclear : ∀ k ∈ done, ¬ k <+: l ++ names) :
    ∀ front, front <+: names → front ≠ [] →
      ∀ target time, fs.get? (l ++ front) ≠ some (.link target time) := by
  intro front hfront hne target time hlink
  rcases laid.leaf _ _ hlink (by simp [Node.kind]) with hbefore | hdone
  · exact hstart front hfront hne target time hbefore
  · exact hclear _ hdone ((List.prefix_append_right_inj l).2 hfront)

/-- In an empty place there are no links. -/
theorem ne_link_of_bare (bare : start.Bare place) {l : Location} (hl : place <+: l) (target : String)
    (time : Int) : start.get? l ≠ some (.link target time) := by
  rintro hlink
  obtain ⟨rest, rfl⟩ := hl
  simpa [Node.kind] using (bare rest _ hlink).2

/-- A directory or a copy is put where nothing stands. -/
theorem put (laid : Laid place start done fs) {done' : Set Location} {l : Location} {new : Node}
    (hdone : done ⊆ done') (hvacant : fs.get? l = none) (puts : fs.Puts l new)
    (hplace : place <+: l ∨ l <+: place) (hnew : new.kind ≠ .directory → l ∈ done') :
    Laid place start done' (fs.set l new) where
  wellFormed := laid.wellFormed.put puts
  within := laid.within.trans (FileSystem.within_set hvacant new)
  grown := fun k node hnode => by
    rw [FileSystem.get?_set] at hnode
    split at hnode
    · next heq => exact .inr (heq ▸ hplace)
    · exact laid.grown k node hnode
  leaf := fun k node hnode hkind => by
    rw [FileSystem.get?_set] at hnode
    split at hnode
    · next heq =>
        rw [← Option.some.inj hnode] at hkind
        exact .inr (heq ▸ hnew hkind)
    · exact (laid.leaf k node hnode hkind).imp_right fun h => hdone h

end Laid

/-- The leaves of two sets of images are those of either. -/
theorem leafLocations_union (a b : Set (Location × Node)) :
    leafLocations (a ∪ b) = leafLocations a ∪ leafLocations b := by
  ext l
  constructor
  · rintro ⟨node, hmem | hmem, hkind⟩
    · exact .inl ⟨node, hmem, hkind⟩
    · exact .inr ⟨node, hmem, hkind⟩
  · rintro (⟨node, hmem, hkind⟩ | ⟨node, hmem, hkind⟩)
    · exact ⟨node, .inl hmem, hkind⟩
    · exact ⟨node, .inr hmem, hkind⟩

/-- Images of entries with different names are clear of each other. -/
theorem clear_image_of_ne {source source' : Location} (target : Location) {a b : String}
    (hne : a ≠ b) : Clear (leafLocations (start.image source (target ++ [a])))
      (start.image source' (target ++ [b])) := by
  rintro k ⟨node, ⟨rest, hk, _⟩, _⟩ x ⟨rest', hx, _⟩ hupper
  obtain rfl : k = target ++ [a] ++ rest := hk
  rw [hx, List.append_assoc, List.append_assoc, List.prefix_append_right_inj] at hupper
  exact hne (List.cons_prefix_cons.1 hupper).1

namespace Lays

variable {images more : Set (Location × Node)} {fs₁ fs₂ : FileSystem} {m n : Nat}

/-- A program that does nothing adds no images. -/
theorem refl (laid : Laid place start done fs) : Lays place start done ∅ fs 0 fs := by
  have hnone : leafLocations ∅ = ∅ := by
    refine Set.eq_empty_iff_forall_notMem.2 ?_
    rintro l ⟨node, hmem, _⟩
    exact hmem
  refine ⟨?_, .refl fs, rfl, fun x hx => hx.elim⟩
  rw [hnone, Set.union_empty]
  exact laid

/-- A program that adds images does so after directories were added, too. -/
theorem after (h : Deepens place start done fs fs₁) (h' : Lays place start done images fs₁ n fs₂) :
    Lays place start done images fs n fs₂ where
  laid := h'.laid
  within := h.within.trans h'.within
  count := by rw [h'.count, h.leaves]
  copies := h'.copies

/-- Directories that are added first count for nothing. -/
theorem after_deepens {l : Location} {node : Node} (h : Deepens place start done fs fs₁)
    (hkind : node.kind = .directory) (h' : Lays place start done images fs₁ n fs₂) :
    Lays place start done ({(l, node)} ∪ images) fs n fs₂ where
  laid := by
    have hleaves : leafLocations ({(l, node)} ∪ images) = leafLocations images := by
      rw [leafLocations_union, Set.union_eq_right]
      rintro k ⟨other, hother, hotherKind⟩
      exact absurd ((Prod.mk.inj hother).2 ▸ hkind) hotherKind
    rw [hleaves]
    exact h'.laid
  within := h.within.trans h'.within
  count := by rw [h'.count, h.leaves]
  copies := by
    rintro x (rfl | hx) hotherKind
    · exact absurd hkind hotherKind
    · exact h'.copies x hx hotherKind

/-- One program after the other lays out the copies of both. -/
theorem trans (h : Lays place start done images fs m fs₁)
    (h' : Lays place start (done ∪ leafLocations images) more fs₁ n fs₂) :
    Lays place start done (images ∪ more) fs (m + n) fs₂ where
  laid := by
    rw [leafLocations_union, ← Set.union_assoc]
    exact h'.laid
  within := h.within.trans h'.within
  count := by rw [h'.count, h.count, Nat.add_assoc]
  copies := by
    rintro x (hx | hx) hkind
    · obtain ⟨copy, hcopy, hcopyOf⟩ := h.copies x hx hkind
      exact ⟨copy, h'.within _ copy hcopy, hcopyOf⟩
    · exact h'.copies x hx hkind

end Lays

namespace Storage

variable {images : Set (Location × Node)} {n : Nat} {ε : Type}

/-- Going through items lays out the copies of each, when no copy for one is at or above an image for a
later one.  What else each of them leaves behind is still there at the end. -/
theorem lays_countOver {ι : Type} {program : ι → Storage ε Nat}
    {images : ι → Set (Location × Node)} {Q : ι → FileSystem → Prop} {items : List ι}
    (hQ : ∀ item fs₁ fs₂, fs₁.Within fs₂ → Q item fs₁ → Q item fs₂)
    (step : ∀ item ∈ items, ∀ done fs₁ n fs₂, fs.Within fs₁ → Laid place start done fs₁ →
      Clear done (images item) → (program item).exec caller fs₁ = (.ok n, fs₂) →
      Lays place start done (images item) fs₁ n fs₂ ∧ Q item fs₂)
    (hpair : items.Pairwise fun a b => Clear (leafLocations (images a)) (images b))
    (laid : Laid place start done fs) (hclear : ∀ item ∈ items, Clear done (images item))
    (h : (countOver program items).exec caller fs = (.ok n, fs')) :
    Lays place start done {x | ∃ item ∈ items, x ∈ images item} fs n fs' ∧
      ∀ item ∈ items, Q item fs' := by
  -- on the items; what the ones before have laid out is clear of the images of the others
  induction items generalizing done fs n with
  | nil =>
      obtain ⟨rfl, rfl⟩ := Run.ok_inj h
      have hnone : {x | ∃ item ∈ ([] : List ι), x ∈ images item} = ∅ := by simp
      rw [hnone]
      exact ⟨.refl laid, fun _ hitem => absurd hitem List.not_mem_nil⟩
  | cons item items ih =>
      obtain ⟨count, fs₁, hitem, h⟩ := of_exec_bind_ok h
      obtain ⟨rest, fs₂, hrest, h⟩ := of_exec_bind_ok h
      obtain ⟨rfl, rfl⟩ := Run.ok_inj h
      obtain ⟨hfirst, hpair⟩ := List.pairwise_cons.1 hpair
      obtain ⟨hlays, hhere⟩ := step item List.mem_cons_self done fs count fs₁ (.refl fs) laid
        (hclear item List.mem_cons_self) hitem
      have hlater := fun other hother done fs₂ n fs₃ hwithin => step other
        (List.mem_cons_of_mem item hother) done fs₂ n fs₃ (hlays.within.trans hwithin)
      have hclearRest : ∀ other ∈ items, Clear (done ∪ leafLocations (images item)) (images other) :=
        fun other hother k hk x hx => hk.elim
          (fun hk => hclear other (List.mem_cons_of_mem item hother) k hk x hx)
          (fun hk => hfirst other hother k hk x hx)
      obtain ⟨hlaysRest, hthere⟩ := ih hlater hpair hlays.laid hclearRest hrest
      have hunion : {x | ∃ other ∈ item :: items, x ∈ images other} =
          images item ∪ {x | ∃ other ∈ items, x ∈ images other} := by
        ext x
        simp
      rw [hunion]
      refine ⟨hlays.trans hlaysRest, fun other hother => ?_⟩
      rcases List.mem_cons.1 hother with rfl | hother
      · exact hQ other fs₁ _ hlaysRest.within hhere
      · exact hthere other hother

/-- Creating the directories on the way to names in or above an empty place. -/
theorem deepens_createDirectories {l names : Location} {p : Path} (laid : Laid place start done fs)
    (toward : Toward caller fs l names p) (hp : p.text ≠ "")
    (hplace : ∀ front, front <+: names → front ≠ [] → place <+: l ++ front ∨ l ++ front <+: place)
    (hstart : ∀ front, front <+: names → front ≠ [] →
      ∀ target time, start.get? (l ++ front) ≠ some (.link target time))
    (hclear : ∀ k ∈ done, ¬ k <+: l ++ names)
    (h : (createDirectories p).exec caller fs = (.ok (), fs')) :
    Deepens place start done fs fs' ∧
      ∃ node, Lookup.find caller fs' true p = .ok (l ++ names, node) ∧ node.kind = .directory := by
  have hmakes : Makes (Deepens place start done) caller fs (createDirectories p) fun _ _ => True := by
    refine makes_createAncestors fun q hq fs₁ fs₂ hchanges hmake => ?_
    obtain ⟨laid₁, hwithin, _⟩ := Deepens.of_changes laid hchanges
    obtain ⟨above, name, slash, hentry, hvacant, puts, rfl⟩ :=
      FileSystem.puts_of_makeDirectory laid₁.wellFormed hmake
    obtain ⟨hcomponents, habsolute⟩ := Path.components_of_mem_ancestors hq
    have noLinks : NoLinks fs₁ l names := fun front hfront hne _ =>
      laid₁.ne_link hstart hclear front hfront hne
    rcases (toward.within hwithin).entry habsolute hcomponents noLinks hentry with
      ⟨node, hnode⟩ | ⟨front, hfront, hne, heq⟩
    · simp [hvacant] at hnode
    · refine ⟨laid₁.put subset_rfl hvacant puts ?_ fun hkind => absurd rfl hkind,
        FileSystem.within_set hvacant _, FileSystem.length_leaves_set_directory place hvacant⟩
      exact heq ▸ hplace front hfront hne
  have hdeepens := Deepens.of_changes laid (hmakes.changes_of_exec h)
  refine ⟨hdeepens, ?_⟩
  obtain ⟨k, node, hfind, hkind⟩ := find_of_createDirectories hp h
  obtain ⟨found, hlocate, hfound⟩ := Run.of_bind_ok hfind
  have hlinks := hdeepens.laid.ne_link hstart hclear
  have hlocation := (toward.within hdeepens.within).location_eq
    (fun front hfront hne _ => hlinks front hfront hne) (hlinks names List.prefix_rfl) hlocate
  cases found with
  | vacant => exact absurd hfound Run.throw_ne_ok
  | occupied k' node' =>
      obtain ⟨rfl, rfl⟩ : k' = k ∧ node' = node := by simpa [pure, Except.pure] using hfound
      exact ⟨node', by rw [hfind, ← hlocation, Lookup.Place.location], hkind⟩

/-- Copying a file or a link into an empty place. -/
theorem lays_copyEntry {base source destination : Path} {l k names : Location} {original : Node}
    (laid : Laid place start done fs) (bare : start.Bare place)
    (receives : Receives caller fs place base l) (hdestination : Behind base names destination)
    (hsource : Lookup.find caller fs false source = .ok (k, original))
    (hkind : original.kind ≠ .directory) (hclear : ∀ k ∈ done, ¬ k <+: l ++ names)
    (h : (copyEntry source destination original).exec caller fs = (.ok (), fs')) :
    Lays place start done {(l ++ names, original)} fs 1 fs' := by
  have hat : place <+: l ++ names := receives.prefix_append names
  have hlinks : ∀ front, front <+: names → front ≠ [] → ∀ target time,
      fs.get? (l ++ front) ≠ some (.link target time) :=
    laid.ne_link (fun front _ _ => Laid.ne_link_of_bare bare (receives.prefix_append front)) hclear
  -- no file can be replaced, since all that is no directory in the place is a copy
  have hleaf {node : Node} (hnode : fs.get? (l ++ names) = some node) : node.kind = .directory := by
    by_contra hnotDirectory
    exact hclear _ (laid.mem_done bare hat hnode hnotDirectory) List.prefix_rfl
  obtain ⟨directory, hbase, hdirectory⟩ := receives.leads
  obtain ⟨hne, copy, rfl, puts, hcopyKind, hcopied⟩ := of_copyEntry_ok laid.wellFormed hsource rfl hbase
    hdirectory hdestination (fun front hfront hne _ => hlinks front hfront hne)
    (fun _ target time hlink => by simpa [Node.kind] using hleaf hlink) h
  have hvacant : fs.get? (l ++ names) = none := by
    by_contra hthere
    obtain ⟨node, hnode⟩ := Option.ne_none_iff_exists'.1 hthere
    have hfile := (puts.replaces node hnode).1
    rw [hleaf hnode] at hfile
    simp at hfile
  have hmem : l ++ names ∈ done ∪ leafLocations {(l ++ names, original)} :=
    .inr ⟨original, rfl, hkind⟩
  refine ⟨laid.put Set.subset_union_left hvacant puts (.inl hat) fun _ => hmem,
    FileSystem.within_set hvacant copy, ?_, ?_⟩
  · obtain ⟨front, rfl⟩ := receives.inPlace
    rw [List.append_assoc] at hvacant ⊢
    exact FileSystem.length_leaves_set (by simp [hne]) hvacant (hcopyKind ▸ hkind)
  · rintro x rfl _
    have hplaces : k ≠ l ++ names := by
      rintro rfl
      rw [Lookup.get?_of_find hsource] at hvacant
      simp at hvacant
    refine ⟨copy, by rw [FileSystem.get?_set, if_pos rfl], ?_⟩
    rw [hcopied hplaces]
    exact original.copied_copyOf caller

/-- Where the copy of a path below the source of a copy goes. -/
theorem of_placeBelow_ok {source destination path target : Path} {more : Location}
    (hsource : source.text ≠ "") (hdestination : destination.text ≠ "")
    (hpath : Behind source more path)
    (h : (placeBelow source destination path).exec caller fs = (.ok target, fs')) :
    fs = fs' ∧ Behind destination more target := by
  unfold placeBelow at h
  split at h
  · next rest hrest =>
      obtain ⟨rfl, rfl⟩ := Run.ok_inj h
      exact ⟨rfl, hpath.join_below hsource hdestination hrest⟩
  · exact absurd h Run.run_throw_ne_ok

/-- What copying a directory does with one of its entries when nothing is to be skipped. -/
def copyInside (source destination : Path) (steps : Nat) (path : Path) (entry : String × Node) :
    Storage Failure Nat := do
  let child := path.join ⟨entry.1⟩
  if entry.2.kind == .directory then copyDirectory [] source destination steps child
  else
    let target ← placeBelow source destination child
    let node ← nodeMet child
    mapError .file (copyEntry child target node)
    return 1

/-- With nothing to skip, an entry is copied as it is inside a directory. -/
theorem copyMet_nil (source destination : Path) (steps : Nat) :
    copyMet [] source destination (copyDirectory [] source destination steps) =
      copyInside source destination steps :=
  rfl

/-- Copying a directory creates its copy and then goes through the entries that it has. -/
theorem of_copyDirectory_ok {steps : Nat} {source destination path : Path} {more : Location}
    (hsource : source.text ≠ "") (hdestination : destination.text ≠ "")
    (hpath : Behind source more path)
    (h : (copyDirectory [] source destination (steps + 1) path).exec caller fs = (.ok n, fs')) :
    ∃ target l node fs₁, Behind destination more target ∧
      Lookup.find caller fs true path = .ok (l, node) ∧
      (createDirectories target).exec caller fs = (.ok (), fs₁) ∧
      (countOver (copyInside source destination steps path) (fs₁.children l)).exec caller fs₁ =
        (.ok n, fs') := by
  rw [← copyDirectoryBy_children] at h
  obtain ⟨target, l, node, fs₁, htarget, hfind, -, -, hcreate, hlisted⟩ := of_copyDirectoryBy_ok rfl h
  obtain ⟨-, hbehind⟩ := of_placeBelow_ok hsource hdestination hpath htarget
  rw [exec_copyListed, funext (copyDirectoryBy_children steps), copyMet_nil] at hlisted
  exact ⟨target, l, node, fs₁, hbehind, hfind, hcreate, hlisted⟩

/-- Copying an entry of a directory into an empty place, when that is known of directories. -/
theorem lays_copyInside {steps : Nat} {base source destination path : Path}
    {k l names more : Location} {top : Node} {entry : String × Node} (wf : start.WellFormed)
    (bare : start.Bare place) (laid : Laid place start done fs)
    (receives : Receives caller fs place base l) (hdestination : Behind base names destination)
    (hsource : source.text ≠ "") (hpath : Behind source more path)
    (hfind : Lookup.find caller fs true path = .ok (k, top)) (hname : Path.IsName entry.1)
    (hnode : fs.get? (k ++ [entry.1]) = some entry.2)
    (hbefore : start.get? (k ++ [entry.1]) = some entry.2)
    (hclear : Clear done (start.image (k ++ [entry.1]) (l ++ (names ++ (more ++ [entry.1])))))
    (hdirectory : entry.2.kind = .directory →
      (copyDirectory [] source destination steps (path.join ⟨entry.1⟩)).exec caller fs =
        (.ok n, fs') →
      Lays place start done (start.image (k ++ [entry.1]) (l ++ (names ++ (more ++ [entry.1])))) fs
        n fs')
    (h : (copyInside source destination steps path entry).exec caller fs = (.ok n, fs')) :
    Lays place start done (start.image (k ++ [entry.1]) (l ++ (names ++ (more ++ [entry.1])))) fs n
      fs' := by
  rw [← copyMet_nil] at h
  by_cases hkind : entry.2.kind = .directory
  · rw [copyMet_directory hkind] at h
    exact hdirectory hkind h
  · obtain ⟨rfl, target, m, met, htarget, hmetFind, hcopy⟩ := of_copyMet_ok hkind rfl h
    have hchild := hpath.trans (Lookup.behind_join (hpath.text_ne_empty hsource) hname)
    obtain ⟨-, hbehind⟩ :=
      of_placeBelow_ok hsource (hdestination.text_ne_empty receives.text) hchild htarget
    obtain ⟨rfl, rfl⟩ := Prod.mk.inj (Lookup.eq_of_find_join hfind hname hnode (.inl rfl) hmetFind)
    rw [FileSystem.image_of_leaf wf _ hbefore hkind] at hclear ⊢
    exact lays_copyEntry laid bare receives (hdestination.trans hbehind) hmetFind hkind
      (fun m hm => hclear m hm _ rfl) hcopy

/-- Copying a directory and everything below it into an empty place. -/
theorem lays_copyDirectory {steps : Nat} {base source destination path : Path}
    {k l names more : Location} {node : Node} (wf : start.WellFormed) (bare : start.Bare place)
    (laid : Laid place start done fs) (receives : Receives caller fs place base l)
    (hdestination : Behind base names destination) (hsource : source.text ≠ "")
    (hpath : Behind source more path) (hnode : start.get? k = some node)
    (hkind : node.kind = .directory) (apart : ¬ k <+: place)
    (hleads : ∀ r, Lookup.find caller fs true path = .ok r → r.1 = k) (hsteps : 0 < steps)
    (hsize : Lookup.maxPath < path.text.utf8ByteSize + steps)
    (hclear : Clear done (start.image k (l ++ (names ++ more))))
    (h : (copyDirectory [] source destination steps path).exec caller fs = (.ok n, fs')) :
    Lays place start done (start.image k (l ++ (names ++ more))) fs n fs' := by
  induction steps generalizing done fs fs' n k more node path with
  | zero => exact absurd hsteps (Nat.lt_irrefl 0)
  | succ steps ih =>
      obtain ⟨target, k', found, fs₁, htarget, hfind, hcreate, hentries⟩ :=
        of_copyDirectory_ok hsource (hdestination.text_ne_empty receives.text) hpath h
      obtain rfl : k' = k := hleads _ hfind
      have hsmall := (Lookup.of_checkText_ok (Lookup.find_eq_ok_iff.1 hfind).1).2
      have hsame {done₂ : Set Location} {fs₂ : FileSystem} (laid₂ : Laid place start done₂ fs₂)
          (rest : Location) : fs₂.get? (k' ++ rest) = start.get? (k' ++ rest) :=
        laid₂.grown.get?_append laid₂.within bare hnode apart rest
      rw [FileSystem.image_eq_union wf (l ++ (names ++ more)) hnode] at hclear ⊢
      -- first the directory itself is there, then its entries are copied one after the other
      obtain ⟨hdeepens, _⟩ := deepens_createDirectories laid
        (receives.toward.behind (hdestination.trans htarget))
        ((hdestination.trans htarget).text_ne_empty receives.text)
        (fun front _ _ => .inl (receives.prefix_append front))
        (fun front _ _ => Laid.ne_link_of_bare bare (receives.prefix_append front))
        (fun m hm => hclear m hm (l ++ (names ++ more), node) (.inl rfl)) hcreate
      have hchildren (entry : String × Node) :
          entry ∈ fs₁.children k' ↔ entry ∈ start.children k' := by
        rw [FileSystem.mem_children, FileSystem.mem_children, hsame hdeepens.laid]
      have hentry : ∀ entry ∈ fs₁.children k', ∀ done₂ fs₂ n fs₃, fs₁.Within fs₂ →
          Laid place start done₂ fs₂ →
          Clear done₂ (start.image (k' ++ [entry.1]) (l ++ (names ++ more) ++ [entry.1])) →
          (copyInside source destination steps path entry).exec caller fs₂ = (.ok n, fs₃) →
          Lays place start done₂ (start.image (k' ++ [entry.1]) (l ++ (names ++ more) ++ [entry.1]))
            fs₂ n fs₃ := by
        intro entry hmem done₂ fs₂ n fs₃ hwithin₂ laid₂ hclear₂ hexec
        have hthere := hwithin₂ _ _ (FileSystem.mem_children.1 hmem)
        have hbefore := (hsame laid₂ [entry.1]).symm.trans hthere
        have hname := laid₂.wellFormed.isName _ _ hthere entry.1 (by simp)
        have hwithin := hdeepens.within.trans hwithin₂
        have hfind₂ := Lookup.find_within hwithin hfind
        rw [List.append_assoc l, List.append_assoc names] at hclear₂ ⊢
        refine lays_copyInside wf bare laid₂ (receives.within hwithin) hdestination hsource hpath hfind₂
          hname hthere hbefore hclear₂ (fun hentryKind hcopy => ?_) hexec
        -- every name makes the paths longer, and the depth suffices for all that can be looked at
        have hlonger := Path.size_lt_join (p := path) hname
        refine ih laid₂ (receives.within hwithin)
          (hpath.trans (Lookup.behind_join (hpath.text_ne_empty hsource) hname)) hbefore hentryKind
          (fun h => apart ((List.prefix_append k' _).trans h)) (fun r hr => ?_) (by omega) (by omega)
          hclear₂ hcopy
        rw [Lookup.eq_of_find_join hfind₂ hname hthere (.inr (by simp [hentryKind])) hr]
      have hpair : (fs₁.children k').Pairwise fun a b =>
          Clear (leafLocations (start.image (k' ++ [a.1]) (l ++ (names ++ more) ++ [a.1])))
            (start.image (k' ++ [b.1]) (l ++ (names ++ more) ++ [b.1])) :=
        (FileSystem.pairwise_children k').imp fun hne => clear_image_of_ne _ hne
      obtain ⟨hrest, -⟩ := lays_countOver (Q := fun _ _ => True) (fun _ _ _ _ h => h)
        (fun entry hmem done₂ fs₂ n fs₃ hwithin laid₂ hclear₂ hexec =>
          ⟨hentry entry hmem done₂ fs₂ n fs₃ hwithin laid₂ hclear₂ hexec, trivial⟩)
        hpair hdeepens.laid (fun entry hmem m hm x hx =>
          hclear m hm x (.inr ⟨entry, (hchildren entry).1 hmem, hx⟩)) hentries
      simp only [hchildren] at hrest
      exact hrest.after_deepens hdeepens hkind

/-- What can be copied is there. -/
theorem exists_find_of_copyTree {skip : List Path} {source destination : Path}
    (h : (copyTree skip source destination).exec caller fs = (.ok n, fs')) :
    ∃ k node, Lookup.find caller fs false source = .ok (k, node) := by
  obtain ⟨node, _, hquery, _⟩ := of_exec_bind_ok h
  obtain ⟨hnode, rfl⟩ := of_exec_query_ok hquery
  obtain ⟨k, hfind⟩ := Lookup.lstat_eq_ok_iff.1 (Run.of_mapError_ok hnode)
  exact ⟨k, node, hfind⟩

/-- Copying what a path leads to into an empty place, under a name of its own. -/
theorem lays_copyTree {base source : Path} {k l : Location} {name : String} {node : Node}
    (wf : start.WellFormed) (bare : start.Bare place) (laid : Laid place start done fs)
    (receives : Receives caller fs place base l) (hname : Path.IsName name)
    (hsource : Lookup.find caller fs false source = .ok (k, node)) (hnode : start.get? k = some node)
    (apart : ¬ k <+: place) (hclear : Clear done (start.image k (l ++ [name])))
    (h : (copyTree [] source (base.join ⟨name⟩)).exec caller fs = (.ok n, fs')) :
    Lays place start done (start.image k (l ++ [name])) fs n fs' := by
  obtain ⟨hsourceText, hsourceSize⟩ := Lookup.of_checkText_ok (Lookup.find_eq_ok_iff.1 hsource).1
  have hdestination := Lookup.behind_join receives.text hname
  unfold copyTree at h
  obtain ⟨met, _, hmet, h⟩ := of_exec_bind_ok h
  obtain ⟨hlook, rfl⟩ := of_exec_query_ok hmet
  obtain ⟨m, hfind⟩ := Lookup.lstat_eq_ok_iff.1 (Run.of_mapError_ok hlook)
  obtain ⟨rfl, rfl⟩ : m = k ∧ met = node := by simpa using hfind.symm.trans hsource
  by_cases hkind : met.kind = .directory
  · rw [if_pos (by simpa using hkind)] at h
    have hfollow := Lookup.find_follow (by simp [hkind]) hsource
    have hsize := String.utf8ByteSize_eq_zero_iff.not.2 hsourceText
    have hleads : ∀ r, Lookup.find caller fs true source = .ok r → r.1 = m := fun r hr => by
      rw [Except.ok.inj (hr.symm.trans hfollow)]
    rw [← List.append_nil [name]] at hclear ⊢
    exact lays_copyDirectory wf bare laid receives hdestination hsourceText
      (Lookup.behind_self source) hnode hkind apart hleads (by simp [Lookup.maxPath]) (by omega)
      hclear h
  · rw [if_neg (by simpa using hkind)] at h
    rw [FileSystem.image_of_leaf wf _ hnode hkind] at hclear ⊢
    have hvacant : ∀ m ∈ done, ¬ m <+: l ++ [name] := fun m hm => hclear m hm _ rfl
    obtain ⟨_, after, hfile, h⟩ := of_exec_bind_ok h
    obtain ⟨rfl, rfl⟩ := Run.ok_inj h
    -- the directory above is the one that the copy is put into, which is there
    obtain ⟨fs₁, hopened, hcopy⟩ := exists_opened_of_copy (of_exec_mapError_ok hfile)
    have hdeepens : Deepens place start done fs fs₁ := by
      rcases hopened with rfl | ⟨above, hparent, habove⟩
      · exact .of_changes laid .refl
      · obtain ⟨hcomponents, _⟩ := Path.components_parent? hparent
        have hbehind : Behind base [] above := by
          rw [Behind, hcomponents, hdestination]
          simp
        refine (deepens_createDirectories laid (receives.toward.behind hbehind)
          (hbehind.text_ne_empty receives.text) ?_ ?_ ?_ habove).1
        · exact fun front hfront hne => absurd (List.prefix_nil.1 hfront) hne
        · exact fun front hfront hne => absurd (List.prefix_nil.1 hfront) hne
        · exact fun m hm hupper => hvacant m hm (hupper.trans ⟨[name], by simp⟩)
    have hlays := lays_copyEntry hdeepens.laid bare (receives.within hdeepens.within) hdestination
      (Lookup.find_within hdeepens.within hsource) hkind hvacant hcopy
    exact hlays.after hdeepens

end Storage

end RpmRelease
