import RpmRelease.Install
import RpmRelease.Proofs.FileSystem.Laying
import RpmRelease.Proofs.FileSystem.Listed
import RpmRelease.Proofs.Glob.Descending
import RpmRelease.Proofs.Release

/-!
# What installing copies

Every match of a set of files is installed under its own name, wherever below the root it was found.
So two matches of one name meet in one place, and what happens there depends on what they are:
directories are merged, a link is refused, and a file silently takes the place of a file.

`images` lists what an installation into an empty destination puts where, in order.  When nothing goes
to or below a place that a file or a link went to before, everything is there afterwards, and the
count is right.
-/

set_option autoImplicit false

namespace RpmRelease

open Lookup (Behind NoLinks Sheltered Toward)

variable {caller : Caller} {start fs fs' : FileSystem} {place : Location} {done : Set Location}
  {n : Nat}

namespace FileSystem

/-- What stands at a location and below it, each with the names that lead to it from there. -/
def subtree (fs : FileSystem) (l : Location) : List (Location × Node) :=
  (fs.get? l).toList.map (fun node => ([], node)) ++ fs.below l

/-- A subtree is what stands at its location and below, with the names that lead there. -/
theorem mem_subtree {l rest : Location} {node : Node} :
    (rest, node) ∈ fs.subtree l ↔ fs.get? (l ++ rest) = some node := by
  rw [subtree, List.mem_append, mem_below]
  by_cases hrest : rest = []
  · subst hrest
    simp
  · simp [hrest]

/-- What is no directory and was not there before. -/
def newLeaves (start fs : FileSystem) : List (Location × Node) :=
  (fs.leaves []).filter fun x => (start.get? x.1).isNone

/-- The new leaves are the nodes that are no directories and stand where nothing stood. -/
theorem mem_newLeaves {l : Location} {node : Node} : (l, node) ∈ newLeaves start fs ↔
    l ≠ [] ∧ fs.get? l = some node ∧ node.kind ≠ .directory ∧ start.get? l = none := by
  rw [newLeaves, List.mem_filter, mem_leaves, Option.isNone_iff_eq_none]
  simp only [List.nil_append, and_assoc]

/-- If all that is new and no directory is below a place that was empty, it is all that is no directory
there. -/
theorem length_newLeaves (bare : start.Bare place)
    (h : ∀ l node, fs.get? l = some node → node.kind ≠ .directory → start.get? l = none →
      ∃ rest, rest ≠ [] ∧ l = place ++ rest) :
    (newLeaves start fs).length = (fs.leaves place).length := by
  have hperm : List.Perm (newLeaves start fs)
      ((fs.leaves place).map fun x => (place ++ x.1, x.2)) := by
    refine (List.perm_ext_iff_of_nodup ((nodup_leaves []).filter _)
      ((nodup_leaves place).map ?_)).2 ?_
    · rintro ⟨rest, node⟩ ⟨rest', node'⟩ heq
      obtain ⟨hrest, hnode⟩ := Prod.mk.inj heq
      exact Prod.ext (List.append_cancel_left hrest) hnode
    · rintro ⟨l, node⟩
      rw [← newLeaves, mem_newLeaves, List.mem_map]
      constructor
      · rintro ⟨_, hnode, hkind, hnew⟩
        obtain ⟨rest, hrest, rfl⟩ := h l node hnode hkind hnew
        exact ⟨(rest, node), mem_leaves.2 ⟨hrest, hnode, hkind⟩, rfl⟩
      · rintro ⟨⟨rest, other⟩, hmem, heq⟩
        obtain ⟨rfl, rfl⟩ := Prod.mk.inj heq
        obtain ⟨hrest, hnode, hkind⟩ := mem_leaves.1 hmem
        refine ⟨by simp [hrest], hnode, hkind, ?_⟩
        by_contra hthere
        obtain ⟨before, hbefore⟩ := Option.ne_none_iff_exists'.1 hthere
        exact hrest (bare rest before hbefore).1
  rw [hperm.length_eq, List.length_map]

end FileSystem

namespace InstallDirectories

/-- Where a directory is below the destination root, if it does not go up. -/
theorem behind_target {given : InstallDirectories} {destination directory : Path}
    (hgiven : given.destination = some destination) (hdestination : destination.text ≠ "")
    (hdown : .parent ∉ directory.components) :
    Behind destination directory.names (given.target directory) := by
  rw [target, hgiven]
  exact Path.components_join_ofComponents hdestination hdown

end InstallDirectories

namespace Project

/-- The sets of files that are installed, each with its directory. -/
def sets (r : Release) (given : InstallDirectories) : List (Path × List String) :=
  let sets := r.configuration.install
  let directories := given.resolve sets r.metadata.name
  [(directories.bindir, sets.bin), (directories.libdir, sets.lib), (directories.etcdir, sets.etc)]

/-- A destination that is empty: it leads by names from some location to a place where nothing stands
but perhaps a directory without entries. -/
structure EmptyDestination (caller : Caller) (fs : FileSystem) (destination : Path)
    (origin names : Location) : Prop where
  text : destination.text ≠ ""
  toward : Toward caller fs origin names destination
  noLinks : NoLinks fs origin names
  bare : fs.Bare (origin ++ names)

namespace EmptyDestination

variable {destination : Path} {origin names more front : Location}

/-- On the way to a directory in the destination, every location is above the destination or in it. -/
theorem prefix_or_prefix (hfront : front <+: names ++ more) :
    origin ++ names <+: origin ++ front ∨ origin ++ front <+: origin ++ names := by
  rw [List.prefix_append_right_inj, List.prefix_append_right_inj]
  exact (List.prefix_or_prefix_of_prefix hfront (List.prefix_append names more)).symm

/-- On the way to a directory in the destination there are no links. -/
theorem ne_link (empty : EmptyDestination caller fs destination origin names)
    (hfront : front <+: names ++ more) (hne : front ≠ []) (target : String) (time : Int) :
    fs.get? (origin ++ front) ≠ some (.link target time) := by
  rcases List.prefix_or_prefix_of_prefix hfront (List.prefix_append names more) with hup | hdown
  · by_cases hwhole : front = names
    · exact Laid.ne_link_of_bare empty.bare (hwhole ▸ List.prefix_rfl) target time
    · exact empty.noLinks front hup hne hwhole target time
  · exact Laid.ne_link_of_bare empty.bare ((List.prefix_append_right_inj origin).2 hdown) target time

end EmptyDestination

/-- Whatever grows in a place, a pattern matches the same paths, and these lead to the same nodes
outside of the place. -/
def Outside (caller : Caller) (start : FileSystem) (place : Location) (root : Path)
    (pattern : String) : Prop :=
  ∀ fs : FileSystem, fs.WellFormed → start.Within fs → FileSystem.Grown place start fs →
    Glob.expand caller fs root pattern = Glob.expand caller start root pattern ∧
    ∀ found, Glob.expand caller start root pattern = .ok found → ∀ source ∈ found, ∀ l node,
      Lookup.find caller fs false source = .ok (l, node) →
        Lookup.find caller start false source = .ok (l, node) ∧ ¬ l <+: place

/-- A pattern that descends is outside of a place that is not in the tree below its root, when the
links in that tree lead down. -/
theorem outside_of_descends {names : List String} {top : Location} {node : Node} {pattern : String}
    (wf : start.WellFormed) (bare : start.Bare place) (hnames : ∀ name ∈ names, Path.IsName name)
    (hplain : ∀ c ∈ (Glob.fromRoot names).text.toList, Glob.isSpecial c = false)
    (hroot : Lookup.find caller start false (Glob.fromRoot names) = .ok (top, node))
    (hkind : node.kind = .directory) (down : start.LinksLeadDown top) (apart : ¬ top <+: place)
    (hpattern : Glob.Descends pattern) :
    Outside caller start place (Glob.fromRoot names) pattern := by
  intro fs _ hwithin grown
  have sheltered : Sheltered caller (Glob.fromRoot names) top start fs := {
    steps := Glob.steps_fromRoot hnames
    leads := ⟨node, hroot, hkind⟩
    within := hwithin
    same := by
      rintro l ⟨rest, rfl⟩
      exact grown.get?_append hwithin bare (Lookup.get?_of_find hroot) apart rest
    down := down }
  refine ⟨Glob.expand_eq hnames hplain hpattern wf sheltered, ?_⟩
  intro found hfound source hsource l other hfind
  have hreaches : Lookup.Reaches caller start (Glob.fromRoot names) top :=
    ⟨Glob.isAbsolute_fromRoot hnames, node, Lookup.find_follow (by simp [hkind]) hroot, hkind⟩
  have hinside := Glob.inside_of_mem_expand hnames hplain hpattern wf hreaches hfound hsource
  rw [sheltered.find_eq hinside] at hfind
  exact ⟨hfind, fun hl => apart ((sheltered.prefix_of_find hinside hfind).trans hl)⟩

section Images

variable (caller : Caller) (fs : FileSystem)

/-- What installing a match puts into a directory, and where. -/
def matchImages (target : Location) (source : Path) : List (Location × Node) :=
  match source.fileName?, Lookup.find caller fs false source with
  | some name, .ok (l, _) => (fs.subtree l).map fun (rest, node) => (target ++ name :: rest, node)
  | _, _ => []

/-- What installing everything that a pattern matches puts into a directory, and where. -/
def patternImages (root : Path) (target : Location) (pattern : String) : List (Location × Node) :=
  match Glob.expand caller fs root pattern with
  | .ok found => found.flatMap (matchImages caller fs target)
  | .error _ => []

/-- What installing a set of files puts where, with the directory that is created for it. -/
def setImages (root : Path) (target : Location) (patterns : List String) : List (Location × Node) :=
  if patterns.isEmpty then []
  else (target, .directory Mode.directory caller.now) ::
    patterns.flatMap (patternImages caller fs root target)

/-- What an installation into a place puts where, in order. -/
def images (r : Release) (given : InstallDirectories) (place : Location) : List (Location × Node) :=
  (sets r given).flatMap fun set => setImages caller fs r.root (place ++ set.1.names) set.2

end Images

/-- What goes to the second place is not at or below the first one, unless that holds a directory. -/
def Spares (first second : Location × Node) : Prop :=
  first.2.kind ≠ .directory → ¬ first.1 <+: second.1

instance (first second : Location × Node) : Decidable (Spares first second) :=
  inferInstanceAs (Decidable (_ → _))

/-- Places that spare each other are clear of each other. -/
theorem clear_of_spares {first second : List (Location × Node)}
    (h : ∀ x ∈ first, ∀ y ∈ second, Spares x y) :
    Clear (leafLocations {x | x ∈ first}) {y | y ∈ second} := by
  rintro l ⟨node, hmem, hkind⟩ y hy
  exact h (l, node) hmem y hy hkind

/-! ## What installing lays out -/

section Laying

variable {r : Release} {l : Location} {base source : Path} {directory : Node} {pattern : String}

/-- What installing a match puts into a directory are the images of the node that it leads to, behind
its name. -/
theorem setOf_matchImages {k : Location} {name : String} {node : Node}
    (hname : source.fileName? = some name)
    (hfind : Lookup.find caller start false source = .ok (k, node)) :
    {x | x ∈ matchImages caller start l source} = start.image k (l ++ [name]) := by
  ext ⟨m, other⟩
  rw [matchImages, hname, hfind]
  constructor
  · intro hmem
    obtain ⟨⟨rest, found⟩, hfound, heq⟩ := List.mem_map.1 hmem
    obtain ⟨rfl, rfl⟩ := Prod.mk.inj heq
    exact ⟨rest, by simp, FileSystem.mem_subtree.1 hfound⟩
  · rintro ⟨rest, hm, hother⟩
    refine List.mem_map.2 ⟨(rest, other), FileSystem.mem_subtree.2 hother, ?_⟩
    exact Prod.ext (by simpa using hm.symm) rfl

/-- Installing a match into an empty place. -/
theorem lays_installMatch (wf : start.WellFormed) (bare : start.Bare place)
    (laid : Laid place start done fs) (receives : Receives caller fs place base l)
    (outside : ∀ k node, Lookup.find caller fs false source = .ok (k, node) →
      Lookup.find caller start false source = .ok (k, node) ∧ ¬ k <+: place)
    (hclear : Clear done {x | x ∈ matchImages caller start l source})
    (h : (installMatch base source).exec caller fs = (.ok n, fs')) :
    Lays place start done {x | x ∈ matchImages caller start l source} fs n fs' := by
  unfold installMatch at h
  cases hname : source.fileName? with
  | none =>
      rw [hname] at h
      obtain ⟨rfl, rfl⟩ := Run.ok_inj h
      have hnone : {x | x ∈ matchImages caller start l source} = ∅ := by
        simp [matchImages, hname]
      rw [hnone]
      exact .refl laid
  | some name =>
      rw [hname] at h
      have hcopy := Storage.of_exec_mapError_ok h
      obtain ⟨k, node, hsource⟩ := Storage.exists_find_of_copyTree hcopy
      obtain ⟨hfind, apart⟩ := outside k node hsource
      rw [setOf_matchImages hname hfind] at hclear ⊢
      exact Storage.lays_copyTree wf bare laid receives (Path.isName_of_fileName? hname) hsource
        (Lookup.get?_of_find hfind) apart hclear hcopy

/-- Going through items lays out a list of images when these spare each other. -/
theorem lays_countOver {ι : Type} {program : ι → Storage Failure Nat}
    {images : ι → List (Location × Node)} {Q : ι → FileSystem → Prop} {items : List ι}
    (hQ : ∀ item fs₁ fs₂, fs₁.Within fs₂ → Q item fs₁ → Q item fs₂)
    (step : ∀ item ∈ items, ∀ done fs₁ n fs₂, fs.Within fs₁ → Laid place start done fs₁ →
      (images item).Pairwise Spares → Clear done {x | x ∈ images item} →
      (program item).exec caller fs₁ = (.ok n, fs₂) →
      Lays place start done {x | x ∈ images item} fs₁ n fs₂ ∧ Q item fs₂)
    (hspares : (items.flatMap images).Pairwise Spares) (laid : Laid place start done fs)
    (hclear : Clear done {x | x ∈ items.flatMap images})
    (h : (Storage.countOver program items).exec caller fs = (.ok n, fs')) :
    Lays place start done {x | x ∈ items.flatMap images} fs n fs' ∧ ∀ item ∈ items, Q item fs' := by
  obtain ⟨hinside, hpair⟩ := List.pairwise_flatMap.1 hspares
  have hunion : {x | x ∈ items.flatMap images} =
      {x | ∃ item ∈ items, x ∈ {y | y ∈ images item}} := by
    ext x
    exact List.mem_flatMap
  rw [hunion] at hclear ⊢
  refine Storage.lays_countOver hQ
    (fun item hitem done₂ fs₁ n fs₂ hwithin laid₁ hclear₁ hexec => ?_)
    (hpair.imp clear_of_spares) laid (fun item hitem k hk x hx => hclear k hk x ⟨item, hitem, hx⟩) h
  exact step item hitem done₂ fs₁ n fs₂ hwithin laid₁ (hinside item hitem) hclear₁ hexec

/-- Installing everything that a pattern matches into an empty place. -/
theorem lays_installPattern (wf : start.WellFormed) (bare : start.Bare place)
    (laid : Laid place start done fs) (receives : Receives caller fs place base l)
    (outside : Outside caller start place r.root pattern)
    (hspares : (patternImages caller start r.root l pattern).Pairwise Spares)
    (hclear : Clear done {x | x ∈ patternImages caller start r.root l pattern})
    (h : (installPattern r base pattern).exec caller fs = (.ok n, fs')) :
    Lays place start done {x | x ∈ patternImages caller start r.root l pattern} fs n fs' := by
  obtain ⟨found, _, hquery, h⟩ := Storage.of_exec_bind_ok h
  obtain ⟨hexpand, rfl⟩ := Storage.of_exec_query_ok hquery
  obtain ⟨_, h⟩ := Storage.of_exec_check_ok h
  have hfound := Run.of_mapError_ok hexpand
  rw [(outside _ laid.wellFormed laid.within laid.grown).1] at hfound
  have himages : patternImages caller start r.root l pattern =
      found.flatMap (matchImages caller start l) := by
    rw [patternImages, hfound]
  rw [himages] at hspares hclear ⊢
  refine (lays_countOver (Q := fun _ _ => True) (fun _ _ _ _ h => h)
    (fun source hsource done₂ fs₁ n fs₂ hwithin laid₁ _ hclear₁ hexec => ⟨?_, trivial⟩)
    hspares laid hclear h).1
  exact lays_installMatch wf bare laid₁ (receives.within hwithin)
    ((outside fs₁ laid₁.wellFormed laid₁.within laid₁.grown).2 found hfound source hsource) hclear₁
    hexec

/-- Installing a set of files into an empty destination creates its directory and fills it. -/
theorem lays_installSet {destination target : Path} {origin names more : Location}
    {patterns : List String} (wf : start.WellFormed)
    (empty : EmptyDestination caller start destination origin names)
    (laid : Laid (origin ++ names) start done fs)
    (htarget : patterns ≠ [] → Behind destination more target)
    (outside : ∀ pattern ∈ patterns, Outside caller start (origin ++ names) r.root pattern)
    (hspares : (setImages caller start r.root (origin ++ names ++ more) patterns).Pairwise Spares)
    (hclear : Clear done {x | x ∈ setImages caller start r.root (origin ++ names ++ more) patterns})
    (h : (installSet r target patterns).exec caller fs = (.ok n, fs')) :
    Lays (origin ++ names) start done
      {x | x ∈ setImages caller start r.root (origin ++ names ++ more) patterns} fs n fs' ∧
    (patterns ≠ [] → Receives caller fs' (origin ++ names) target (origin ++ names ++ more)) := by
  unfold installSet at h
  unfold setImages at hspares hclear ⊢
  by_cases hpatterns : patterns.isEmpty = true
  · rw [if_pos hpatterns] at h ⊢
    obtain ⟨rfl, rfl⟩ := Run.ok_inj h
    have hnone : {x : Location × Node | x ∈ []} = ∅ := by simp
    rw [hnone]
    exact ⟨.refl laid, fun hne => absurd (List.isEmpty_iff.1 hpatterns) hne⟩
  · rw [if_neg hpatterns] at h hspares hclear ⊢
    have hbehind := htarget (by simpa using hpatterns)
    obtain ⟨_, fs₁, hcreate, h⟩ := Storage.of_exec_bind_ok h
    -- first the directory of the set is created, which counts as an image of its own
    obtain ⟨hdeepens, node, hfind, hkind⟩ := Storage.deepens_createDirectories laid
      ((empty.toward.within laid.within).behind hbehind) (hbehind.text_ne_empty empty.text)
      (fun front hfront _ => EmptyDestination.prefix_or_prefix hfront)
      (fun front hfront hne => empty.ne_link hfront hne)
      (fun k hk => List.append_assoc origin _ _ ▸ hclear k hk _ List.mem_cons_self)
      (Storage.of_exec_mapError_ok hcreate)
    rw [← List.append_assoc] at hfind
    have receives : Receives caller fs₁ (origin ++ names) target (origin ++ names ++ more) :=
      ⟨List.prefix_append _ more, node, hfind, hkind⟩
    -- then the images of the patterns are put there, each clear of those before it
    obtain ⟨hrest, -⟩ := lays_countOver (Q := fun _ _ => True) (fun _ _ _ _ h => h)
      (fun pattern hpattern done₂ fs₂ n fs₃ hwithin laid₂ hinside hclear₂ hexec =>
        ⟨lays_installPattern wf empty.bare laid₂ (receives.within hwithin) (outside pattern hpattern)
          hinside hclear₂ hexec, trivial⟩)
      (List.pairwise_cons.1 hspares).2 hdeepens.laid
      (fun k hk x hx => hclear k hk x (List.mem_cons_of_mem _ hx)) h
    refine ⟨?_, fun _ => receives.within hrest.within⟩
    have hcons : {x | x ∈ (origin ++ names ++ more, Node.directory Mode.directory caller.now) ::
        patterns.flatMap (patternImages caller start r.root (origin ++ names ++ more))} =
        {(origin ++ names ++ more, .directory Mode.directory caller.now)} ∪
          {x | x ∈ patterns.flatMap (patternImages caller start r.root (origin ++ names ++ more))} := by
      ext x
      exact List.mem_cons
    rw [hcons]
    exact hrest.after_deepens hdeepens rfl

/-- An installation goes through the sets of files. -/
theorem install_eq_countOver (r : Release) (given : InstallDirectories) : install r given =
    Storage.countOver (fun set => installSet r (given.target set.1) set.2) (sets r given) := by
  simp only [install, sets, Storage.countOver, bind_assoc, pure_bind, Nat.add_zero, Nat.add_assoc]

/-- What an installation into an empty destination leaves there. -/
theorem lays_install {given : InstallDirectories} {destination : Path} {origin names : Location}
    (wf : start.WellFormed) (hgiven : given.destination = some destination)
    (empty : EmptyDestination caller start destination origin names)
    (hdown : ∀ set ∈ sets r given, set.2 ≠ [] → .parent ∉ set.1.components)
    (outside : ∀ set ∈ sets r given, ∀ pattern ∈ set.2,
      Outside caller start (origin ++ names) r.root pattern)
    (hspares : (images caller start r given (origin ++ names)).Pairwise Spares)
    (h : (install r given).exec caller start = (.ok n, fs')) :
    Lays (origin ++ names) start ∅ {x | x ∈ images caller start r given (origin ++ names)} start n fs' ∧
      ∀ set ∈ sets r given, set.2 ≠ [] → Receives caller fs' (origin ++ names)
        (given.target set.1) (origin ++ names ++ set.1.names) := by
  rw [install_eq_countOver] at h
  refine lays_countOver
    (Q := fun set fs => set.2 ≠ [] →
      Receives caller fs (origin ++ names) (given.target set.1) (origin ++ names ++ set.1.names))
    (fun set fs₁ fs₂ hwithin receives hne => ?_)
    (fun set hset done₂ fs₁ n fs₂ _ laid₁ hinside hclear₁ hexec => ?_)
    hspares (.refl wf) (fun k hk => hk.elim) h
  · exact (receives hne).within hwithin
  · exact lays_installSet wf empty laid₁
      (fun hne => InstallDirectories.behind_target hgiven empty.text (hdown set hset hne))
      (outside set hset) hinside hclear₁ hexec

/-- A file or a link that is to be installed: it is what a pattern of a set matches, or below that, and
goes to some names in the directory of the set. -/
inductive Chosen (caller : Caller) (fs : FileSystem) (r : Release) (given : InstallDirectories) :
    Path → Location → Node → Prop
  | intro {directory : Path} {patterns : List String} {pattern : String} {found : List Path}
    {source : Path} {name : String} {k rest : Location} {top original : Node}
    (hset : (directory, patterns) ∈ sets r given) (hpattern : pattern ∈ patterns)
    (hfound : Glob.expand caller fs r.root pattern = .ok found) (hsource : source ∈ found)
    (hname : source.fileName? = some name)
    (hleads : Lookup.find caller fs false source = .ok (k, top))
    (horiginal : fs.get? (k ++ rest) = some original) (hkind : original.kind ≠ .directory) :
    Chosen caller fs r given directory (name :: rest) original

/-- What is chosen is among the images, and it belongs to a set. -/
theorem Chosen.mem_images {given : InstallDirectories} {directory : Path} {names : Location}
    {original : Node} (h : Chosen caller fs r given directory names original) :
    original.kind ≠ .directory ∧
      (place ++ directory.names ++ names, original) ∈ images caller fs r given place ∧
      ∃ set ∈ sets r given, set.2 ≠ [] ∧ set.1 = directory := by
  cases h with
  | intro hset hpattern hfound hsource hname hleads horiginal hkind =>
      have hne := List.ne_nil_of_mem hpattern
      refine ⟨hkind, List.mem_flatMap.2 ⟨_, hset, ?_⟩, _, hset, hne, rfl⟩
      rw [setImages, if_neg (by simpa using hne)]
      refine List.mem_cons_of_mem _ (List.mem_flatMap.2 ⟨_, hpattern, ?_⟩)
      rw [patternImages, hfound]
      refine List.mem_flatMap.2 ⟨_, hsource, ?_⟩
      rw [matchImages, hname, hleads]
      exact List.mem_map.2 ⟨_, FileSystem.mem_subtree.2 horiginal, rfl⟩

/-- The images of files and links are in the place. -/
theorem exists_append_of_mem_images {given : InstallDirectories} {x : Location × Node}
    (h : x ∈ images caller fs r given place) (hkind : x.2.kind ≠ .directory) :
    ∃ rest, rest ≠ [] ∧ x.1 = place ++ rest := by
  obtain ⟨⟨directory, patterns⟩, _, hset⟩ := List.mem_flatMap.1 h
  by_cases hpatterns : patterns.isEmpty = true
  · simp [setImages, hpatterns] at hset
  · rw [setImages, if_neg hpatterns] at hset
    rcases List.mem_cons.1 hset with rfl | hset
    · exact absurd rfl hkind
    · obtain ⟨pattern, _, hpattern⟩ := List.mem_flatMap.1 hset
      unfold patternImages at hpattern
      split at hpattern
      · obtain ⟨source, _, hsource⟩ := List.mem_flatMap.1 hpattern
        unfold matchImages at hsource
        split at hsource
        · next name _ _ _ _ =>
            obtain ⟨⟨rest, node⟩, _, rfl⟩ := List.mem_map.1 hsource
            exact ⟨directory.names ++ name :: rest, by simp, by simp⟩
        · simp at hsource
      · simp at hpattern

/-- After an installation into an empty destination, every file and every link that was to be installed
is in the directory of its set with its own contents, and as many files and links are new as have been
counted, provided that nothing goes to or below a place that a file or a link went to before. -/
theorem exists_copy_of_install {given : InstallDirectories} {destination : Path}
    {origin names : Location} (wf : start.WellFormed) (hgiven : given.destination = some destination)
    (empty : EmptyDestination caller start destination origin names)
    (hdown : ∀ set ∈ sets r given, set.2 ≠ [] → .parent ∉ set.1.components)
    (outside : ∀ set ∈ sets r given, ∀ pattern ∈ set.2,
      Outside caller start (origin ++ names) r.root pattern)
    (hspares : (images caller start r given (origin ++ names)).Pairwise Spares)
    (h : (install r given).exec caller start = (.ok n, fs')) :
    (∀ directory more original, Chosen caller start r given directory more original →
      ∃ l node copy, Lookup.find caller fs' true (given.target directory) = .ok (l, node) ∧
        fs'.get? (l ++ more) = some copy ∧ copy.CopyOf original) ∧
    (FileSystem.newLeaves start fs').length = n := by
  obtain ⟨hlays, hreceives⟩ := lays_install wf hgiven empty hdown outside hspares h
  constructor
  · intro directory more original hchosen
    obtain ⟨hkind, hmem, set, hset, hpatterns, rfl⟩ := hchosen.mem_images
    obtain ⟨copy, hcopy, hcopyOf⟩ := hlays.copies _ hmem hkind
    obtain ⟨node, hfind, _⟩ := (hreceives set hset hpatterns).leads
    exact ⟨_, node, copy, hfind, hcopy, hcopyOf⟩
  · rw [FileSystem.length_newLeaves empty.bare fun l node hnode hkind hnew => ?_, hlays.count,
      FileSystem.leaves_eq_nil empty.bare]
    · exact Nat.zero_add n
    · rcases hlays.laid.leaf l node hnode hkind with hbefore | hnone | ⟨other, hmem, hother⟩
      · simp [hnew] at hbefore
      · exact hnone.elim
      · exact exists_append_of_mem_images hmem hother

end Laying

/-- The destination `/t`, and otherwise the usual directories. -/
def intoT : InstallDirectories where
  destination := some ⟨"/t"⟩

/-- A tree at `/r` and its patterns have nothing to do with `/t`. -/
theorem outside_t {r : Release} {sets : List (Path × List String)} (wf : start.WellFormed)
    (bare : start.Bare ["t"]) (hroot : r.root = Glob.fromRoot ["r"])
    (hfind : Lookup.find .superuserAtRoot start false (Glob.fromRoot ["r"]) =
      .ok (["r"], .directory Mode.directory 0))
    (down : ∀ l node, start.get? l = some node → node.LeadsDown)
    (hpatterns : ∀ set ∈ sets, ∀ pattern ∈ set.2, Glob.Descends pattern) :
    ∀ set ∈ sets, ∀ pattern ∈ set.2, Outside .superuserAtRoot start ["t"] r.root pattern := by
  intro set hset pattern hpattern
  rw [hroot]
  have hplain : ∀ c ∈ (Glob.fromRoot ["r"]).text.toList, Glob.isSpecial c = false := by
    have htext : (Glob.fromRoot ["r"]).text.toList = ['/', 'r'] := by decide
    rw [htext, List.forall_mem_cons, List.forall_mem_singleton]
    exact ⟨by decide, by decide⟩
  exact outside_of_descends wf bare (by decide) hplain hfind rfl (fun l node _ => down l node)
    (by decide) (hpatterns set hset pattern hpattern)

/-- A release of which a program and a directory are installed. -/
def programRelease : Release :=
  { Release.first with configuration := { install := { bin := ["x"], lib := ["d*"] } } }

/-- A program, and a directory with a file of the same name and a link to it. -/
def programTree : FileSystem :=
  .ofNodes [
    (["r", "d", "y"], .link "x" 0),
    (["r", "d", "x"], .file Mode.file 0 [2]),
    (["r", "d"], .directory Mode.directory 0),
    (["r", "x"], .file Mode.directory 0 [1]),
    (["r"], .directory Mode.directory 0)]

/-- The destination is not there yet. -/
theorem emptyDestination_programTree :
    EmptyDestination .superuserAtRoot programTree ⟨"/t"⟩ [] ["t"] where
  text := by decide
  toward := ⟨[], .directory Mode.directory 0, by decide, by decide +kernel⟩
  noLinks := fun front hfront hne hwhole =>
    absurd (Lookup.eq_nil_of_prefix_singleton hfront hwhole) hne
  bare := by
    intro rest node hnode
    have hroot : ∀ l node, programTree.get? l = some node → l.head? ≠ some "t" :=
      FileSystem.forall_ofNodes (by decide) (by decide)
    exact absurd rfl (hroot _ node hnode)

/-- The program, the file and the link are installed. -/
theorem exists_copy_of_install_program : ∃ fs',
    (install programRelease intoT).exec .superuserAtRoot programTree = (.ok 3, fs') ∧
    (∀ directory more original,
      Chosen .superuserAtRoot programTree programRelease intoT directory more original →
      ∃ l node copy,
        Lookup.find .superuserAtRoot fs' true (intoT.target directory) = .ok (l, node) ∧
        fs'.get? (l ++ more) = some copy ∧ copy.CopyOf original) ∧
    (FileSystem.newLeaves programTree fs').length = 3 := by
  have hresult : ((install programRelease intoT).exec .superuserAtRoot programTree).1 = .ok 3 := by
    decide +kernel
  have hinstall := Storage.exec_eq_of_outcome hresult
  have wf : programTree.WellFormed := FileSystem.wellFormed_ofNodes (by decide)
  have empty := emptyDestination_programTree
  have outside := outside_t wf empty.bare (show programRelease.root = _ by decide) (by decide +kernel)
    (FileSystem.forall_ofNodes (by decide) (by decide +kernel))
    (show ∀ set ∈ sets programRelease intoT, ∀ pattern ∈ set.2, Glob.Descends pattern by decide +kernel)
  exact ⟨_, hinstall, exists_copy_of_install wf rfl empty (by decide +kernel) outside
    (by decide +kernel) hinstall⟩

/-- A release of which two files of one name are installed into one directory. -/
def sameNameRelease : Release :=
  { Release.first with configuration := { install := { lib := ["a/x", "b/x"] } } }

/-- Two files of one name, and an empty destination. -/
def sameNameTree : FileSystem :=
  .ofNodes [
    (["r", "a", "x"], .file Mode.file 0 [1]),
    (["r", "b", "x"], .file Mode.file 0 [2]),
    (["r", "a"], .directory Mode.directory 0),
    (["r", "b"], .directory Mode.directory 0),
    (["r"], .directory Mode.directory 0),
    (["t"], .directory Mode.directory 0)]

/-- The destination of the project with two files of one name is empty. -/
theorem emptyDestination_sameNameTree :
    EmptyDestination .superuserAtRoot sameNameTree ⟨"/t"⟩ [] ["t"] where
  text := by decide
  toward := ⟨[], .directory Mode.directory 0, by decide, by decide +kernel⟩
  noLinks := fun front hfront hne hwhole =>
    absurd (Lookup.eq_nil_of_prefix_singleton hfront hwhole) hne
  bare := by
    intro rest node hnode
    have hroot : ∀ l node, sameNameTree.get? l = some node →
        l.head? = some "t" → l.tail = [] ∧ node.kind = .directory :=
      FileSystem.forall_ofNodes (by decide) (by decide)
    exact hroot _ node hnode rfl

/-- Both files go to one place.  They are counted as two, but only the second one is there
afterwards. -/
theorem install_loses_source :
    sameNameTree.WellFormed ∧
    EmptyDestination .superuserAtRoot sameNameTree ⟨"/t"⟩ [] ["t"] ∧
    (∀ set ∈ sets sameNameRelease intoT, ∀ pattern ∈ set.2,
      Outside .superuserAtRoot sameNameTree ["t"] sameNameRelease.root pattern) ∧
    Chosen .superuserAtRoot sameNameTree sameNameRelease intoT ⟨"/usr/share/p"⟩ ["x"]
      (.file Mode.file 0 [1]) ∧
    ∃ fs', (install sameNameRelease intoT).exec .superuserAtRoot sameNameTree = (.ok 2, fs') ∧
      (¬ ∃ l node copy,
        Lookup.find .superuserAtRoot fs' true (intoT.target ⟨"/usr/share/p"⟩) = .ok (l, node) ∧
        fs'.get? (l ++ ["x"]) = some copy ∧ copy.CopyOf (.file Mode.file 0 [1])) ∧
      (FileSystem.newLeaves sameNameTree fs').length = 1 := by
  have wf : sameNameTree.WellFormed := FileSystem.wellFormed_ofNodes (by decide)
  have empty := emptyDestination_sameNameTree
  have hset : ((⟨"/usr/share/p"⟩ : Path), ["a/x", "b/x"]) ∈ sets sameNameRelease intoT := by
    decide +kernel
  have hfound : Glob.expand .superuserAtRoot sameNameTree sameNameRelease.root "a/x" =
      .ok [⟨"/r/a/x"⟩] := by
    decide +kernel
  have hleads : Lookup.find .superuserAtRoot sameNameTree false ⟨"/r/a/x"⟩ =
      .ok (["r", "a"] ++ ["x"], .file Mode.file 0 [1]) := by
    decide +kernel
  have horiginal : sameNameTree.get? (["r", "a", "x"] ++ []) = some (.file Mode.file 0 [1]) := by
    decide
  have hfirst : Chosen .superuserAtRoot sameNameTree sameNameRelease intoT ⟨"/usr/share/p"⟩ ["x"]
      (.file Mode.file 0 [1]) :=
    .intro hset List.mem_cons_self hfound (List.mem_singleton_self _) (by decide) hleads horiginal
      (by decide)
  obtain ⟨hresult, hplace, hsecond, hcount⟩ :
      let run := (install sameNameRelease intoT).exec .superuserAtRoot sameNameTree
      run.1 = .ok 2 ∧
      Lookup.find .superuserAtRoot run.2 true (intoT.target ⟨"/usr/share/p"⟩) =
        .ok (["t", "usr", "share", "p"], .directory Mode.directory 0) ∧
      run.2.get? ["t", "usr", "share", "p", "x"] = some (.file Mode.file 0 [2]) ∧
      (FileSystem.newLeaves sameNameTree run.2).length = 1 := by
    decide +kernel
  refine ⟨wf, empty, ?_, hfirst, _, Storage.exec_eq_of_outcome hresult, ?_, hcount⟩
  · exact outside_t wf empty.bare (by decide) (by decide +kernel)
      (FileSystem.forall_ofNodes (by decide) (by decide +kernel)) (by decide +kernel)
  -- what stands in the target is the copy of the second file
  · rintro ⟨l, node, copy, hfind, hcopy, hcopyOf⟩
    obtain ⟨rfl, rfl⟩ := Prod.mk.inj (Except.ok.inj (hplace.symm.trans hfind))
    obtain rfl := Option.some.inj (hsecond.symm.trans hcopy)
    exact absurd (show ([2] : Bytes) = [1] from hcopyOf) (by decide)

end Project

end RpmRelease
