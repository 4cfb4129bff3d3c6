import RpmRelease.Proofs.FileSystem.Transferring
import RpmRelease.Proofs.Install

/-!
# What installing reads

The directories that something is installed into may be anywhere, in the project root too, and they are
created before the patterns are expanded.  As long as no match of a pattern leads to one of them, into one
or above one, in whatever way they have been filled, everything that is installed is the copy of a node
that was there before and that installing has not touched, however installing ends.  In particular no
copy is copied again, so that nothing comes to stand deeper than a tree that was there, put into one of
the directories.

Without this condition a match takes in what has just been installed: a directory that is installed into
a directory below itself is filled with copies of its own copies.
-/

set_option autoImplicit false

namespace RpmRelease.Project

open Relation (ReflTransGen)
open Lookup (Passes Plain)
open Storage (Makes Transfer)

/-! ## Where installing leaves its traces -/

/-- The directories that something is installed into. -/
def targets (r : Release) (given : InstallDirectories) : List Path :=
  ((sets r given).filter fun set => !set.2.isEmpty).map fun set => given.target set.1

section Sources

variable (caller : Caller) (start : FileSystem) (r : Release) (given : InstallDirectories)

/-- A location is on the way to a directory that something is installed into, or in it. -/
def Touched (l : Location) : Prop :=
  ∃ target ∈ targets r given, Passes caller target l ∨ Lookup.destined caller target <+: l

/-- Something has been installed, more or less: every node is there as before, but for the contents of
files, and the rest is as before where nothing is installed. -/
structure Filled (fs : FileSystem) : Prop where
  wellFormed : fs.WellFormed
  stays : ∀ l node, start.get? l = some node → ∃ node', fs.get? l = some node' ∧
    node'.kind = node.kind ∧ (node.kind ≠ .file → node' = node)
  elsewhere : ∀ l, ¬ Touched caller r given l → fs.get? l = start.get? l

/-- A path that a pattern stands for leads to a location, when something has been installed. -/
def Matches (pattern : String) (p : Path) (l : Location) : Prop :=
  ∃ before found after top, Filled caller start r given before ∧
    Glob.expand caller before r.root pattern = .ok found ∧ p ∈ found ∧
    Filled caller start r given after ∧ Lookup.find caller after false p = .ok (l, top)

/-- What a pattern stands for is apart from everything that is installed. -/
def Apart (pattern : String) : Prop :=
  ∀ p l, Matches caller start r given pattern p l → ∀ names, ¬ Touched caller r given (l ++ names)

/-- At a location, the copy of a node may be put: a directory on the way to one that something is
installed into, or a node of the tree that a match leads to, under its names behind the name of the
match. -/
inductive Image : Location → Node → Prop
  | way {target : Path} {l : Location} (htarget : target ∈ targets r given)
    (hpasses : Passes caller target l) : Image l (.directory Mode.directory caller.now)
  | copy {directory : Path} {patterns : List String} {pattern : String} {p : Path} {name : String}
    {l names : Location} {original : Node} (hset : (directory, patterns) ∈ sets r given)
    (hpattern : pattern ∈ patterns) (hmatches : Matches caller start r given pattern p l)
    (hname : p.fileName? = some name) (horiginal : start.get? (l ++ names) = some original) :
    Image (Lookup.destined caller (given.target directory) ++ name :: names) original

/-- Where there is a link, or where one may be put, nothing else is put. -/
def KeepsLinks : Prop :=
  ∀ l original, Image caller start r given l original → ∀ target time,
    start.get? l = some (.link target time) ∨
      Image caller start r given l (.link target time) → original.kind = .link

/-- A single change that installing makes. -/
inductive Installs (fs : FileSystem) : FileSystem → Prop
  /-- a directory is created on the way -/
  | way {target : Path} {l : Location} (htarget : target ∈ targets r given)
    (hpasses : Passes caller target l)
    (puts : fs.Puts l (.directory Mode.directory caller.now)) :
    Installs fs (fs.set l (.directory Mode.directory caller.now))
  /-- a node that was there before, and still is, is copied -/
  | copy {k l : Location} {original : Node} (before : start.get? k = some original)
    (untouched : ¬ Touched caller r given k) (now : fs.get? k = some original)
    (image : Image caller start r given l original)
    (puts : fs.Puts l (original.copied caller)) :
    Installs fs (fs.set l (original.copied caller))

/-- Something has been installed, and everything comes from somewhere. -/
structure Reached (fs : FileSystem) : Prop extends Filled caller start r given fs where
  origin : ∀ l node, fs.get? l = some node → start.get? l = some node ∨
    ∃ original, Image caller start r given l original ∧ node = original.copied caller

end Sources

variable {caller : Caller} {start fs fs' : FileSystem} {r : Release} {given : InstallDirectories}
  {target p : Path} {directory : Path} {patterns : List String} {pattern : String} {l k : Location}
  {node original : Node}

/-- The directory of a set with a pattern is one of the targets. -/
theorem mem_targets (hset : (directory, patterns) ∈ sets r given) (hpattern : pattern ∈ patterns) :
    given.target directory ∈ targets r given := by
  refine List.mem_map.2 ⟨(directory, patterns), List.mem_filter.2 ⟨hset, ?_⟩, rfl⟩
  simpa using List.ne_nil_of_mem hpattern

/-! ## What a change preserves -/

/-- What may be put somewhere is put on the way to a target or in one. -/
theorem Image.touched (h : Image caller start r given l original) : Touched caller r given l := by
  cases h with
  | way htarget hpasses => exact ⟨_, htarget, .inl hpasses⟩
  | copy hset hpattern _ _ _ =>
      exact ⟨_, mem_targets hset hpattern, .inr (List.prefix_append _ _)⟩

/-- Every change puts the copy of a node where it may be put. -/
theorem Installs.exists_image (h : Installs caller start r given fs fs') :
    ∃ l original, Image caller start r given l original ∧ fs.Puts l (original.copied caller) ∧
      fs' = fs.set l (original.copied caller) := by
  cases h with
  | way htarget hpasses puts => exact ⟨_, _, .way htarget hpasses, puts, rfl⟩
  | copy _ _ _ image puts => exact ⟨_, _, image, puts, rfl⟩

/-- In the beginning nothing has been installed. -/
theorem Filled.refl (wf : start.WellFormed) : Filled caller start r given start where
  wellFormed := wf
  stays := fun _ node hnode => ⟨node, hnode, rfl, fun _ => rfl⟩
  elsewhere := fun _ _ => rfl

/-- In the beginning everything comes from where it is. -/
theorem Reached.refl (wf : start.WellFormed) : Reached caller start r given start where
  toFilled := .refl wf
  origin := fun _ _ hnode => .inl hnode

/-- One change that installing makes reaches what may be reached. -/
theorem Reached.step (reached : Reached caller start r given fs)
    (h : Installs caller start r given fs fs') : Reached caller start r given fs' := by
  obtain ⟨l, original, image, puts, rfl⟩ := h.exists_image
  refine ⟨⟨reached.wellFormed.put puts, fun k node hnode => ?_, fun k hk => ?_⟩, fun k node hnode => ?_⟩
  · obtain ⟨middle, hmiddle, hkind, hsame⟩ := reached.stays k node hnode
    obtain ⟨node', hnode', hkind', hsame'⟩ := puts.get?_set hmiddle
    refine ⟨node', hnode', hkind'.trans hkind, fun hother => ?_⟩
    rw [hsame' (hkind ▸ hother), hsame hother]
  · rw [FileSystem.get?_set, if_neg, reached.elsewhere k hk]
    rintro rfl
    exact hk image.touched
  · rw [FileSystem.get?_set] at hnode
    split at hnode
    · next heq =>
        subst heq
        exact .inr ⟨original, image, (Option.some.inj hnode).symm⟩
    · exact reached.origin k node hnode

/-- All changes that installing makes reach what may be reached. -/
theorem Reached.changes (reached : Reached caller start r given fs)
    (h : ReflTransGen (Installs caller start r given) fs fs') : Reached caller start r given fs' := by
  induction h with
  | refl => exact reached
  | tail _ hstep ih => exact ih.step hstep

/-- A path to what is no file leads there still. -/
theorem find_of_installs {path : Path} {follow : Bool} (hkind : node.kind ≠ .file)
    (hfind : Lookup.find caller fs follow path = .ok (l, node))
    (h : ReflTransGen (Installs caller start r given) fs fs') :
    Lookup.find caller fs' follow path = .ok (l, node) := by
  induction h with
  | refl => exact hfind
  | tail _ hstep ih =>
      obtain ⟨k, original, -, puts, rfl⟩ := hstep.exists_image
      obtain ⟨node', hfind', -, hsame⟩ := puts.find_set ih
      rwa [hsame hkind] at hfind'

/-- Links are where they were, or where one may be put. -/
theorem Reached.ne_link (reached : Reached caller start r given fs)
    (hlinks : KeepsLinks caller start r given) (image : Image caller start r given l original)
    {text : String} {time : Int} (hlink : fs.get? l = some (.link text time)) :
    original.kind = .link := by
  rcases reached.origin l _ hlink with hbefore | ⟨other, hother, hcopy⟩
  · exact hlinks l original image text time (.inl hbefore)
  · cases other with
    | directory => cases hcopy
    | file => cases hcopy
    | link text' time' => exact hlinks l original image text' time' (.inr hother)

/-- There are no links on the way to a directory that something is installed into. -/
theorem Reached.plain (reached : Reached caller start r given fs)
    (hlinks : KeepsLinks caller start r given) (htarget : target ∈ targets r given) :
    Plain caller fs target := by
  intro l hpasses text time hlink
  simpa [Node.kind] using reached.ne_link hlinks (.way htarget hpasses) hlink

/-! ## Programs -/

/-- Creating a directory that something is installed into. -/
theorem Reached.makes_createDirectories (reached : Reached caller start r given fs)
    (hlinks : KeepsLinks caller start r given) (htarget : target ∈ targets r given)
    (htext : target.text ≠ "") :
    Makes (Installs caller start r given) caller fs (Storage.createDirectories target)
      fun _ fs' => ∃ node, Lookup.find caller fs' true target =
        .ok (Lookup.destined caller target, node) ∧ node.kind = .directory where
  changes := by
    refine (Storage.makes_createAncestors fun q hq fs₁ fs₂ hchanges hmake => ?_).changes
    obtain ⟨hcomponents, habsolute⟩ := Path.components_of_mem_ancestors hq
    have reached₁ := reached.changes hchanges
    obtain ⟨l, name, slash, hentry, -, puts, rfl⟩ :=
      FileSystem.puts_of_makeDirectory reached₁.wellFormed hmake
    have hplain := (reached₁.plain hlinks htarget).above habsolute hcomponents
    exact .way htarget ((hplain.entry_eq hentry).2.of_above habsolute hcomponents) puts
  result := fun _ hok => Storage.find_of_createDirectories_plain reached.wellFormed
    (reached.plain hlinks htarget) htext (Storage.exec_eq_of_outcome hok)

/-- Copying a tree that is not there fails, and nothing changes. -/
theorem makes_copyTree_missing {step : FileSystem → FileSystem → Prop} {skip : List Path}
    {destination : Path} (h : ∀ r, Lookup.find caller fs false p ≠ .ok r) :
    Makes step caller fs (Storage.copyTree skip p destination) fun _ _ => True := by
  unfold Storage.copyTree
  refine Makes.query.bind ?_
  rintro node fs - ⟨rfl, hnode⟩
  obtain ⟨l, hl⟩ := Lookup.lstat_eq_ok_iff.1 (Run.of_mapError_ok hnode)
  exact absurd hl (h _)

/-- Installing one match into a directory. -/
theorem Reached.makes_installMatch (reached : Reached caller start r given fs)
    (hlinks : KeepsLinks caller start r given) (hset : (directory, patterns) ∈ sets r given)
    (hpattern : pattern ∈ patterns) (apart : Apart caller start r given pattern)
    (htarget : Lookup.find caller fs true (given.target directory) =
      .ok (Lookup.destined caller (given.target directory), node)) (hkind : node.kind = .directory)
    (hmatches : ∀ k top, Lookup.find caller fs false p = .ok (k, top) →
      Matches caller start r given pattern p k) :
    Makes (Installs caller start r given) caller fs (installMatch (given.target directory) p)
      fun _ _ => True := by
  unfold installMatch
  cases hname : p.fileName? with
  | none => exact .pure trivial
  | some name =>
      refine Makes.mapError ?_
      by_cases hfound : ∃ k top, Lookup.find caller fs false p = .ok (k, top)
      · obtain ⟨k, top, hsource⟩ := hfound
        have hmatch := hmatches k top hsource
        have huntouched := apart p k hmatch
        have hmem := mem_targets hset hpattern
        have htext (path : Path) {follow : Bool} {x : Location × Node}
            (h : Lookup.find caller fs follow path = .ok x) : path.text ≠ "" :=
          (Lookup.of_checkText_ok (Lookup.find_eq_ok_iff.1 h).1).1
        have hstart (names : Location) : fs.get? (k ++ names) = start.get? (k ++ names) :=
          reached.elsewhere _ (huntouched names)
        have himage {names : Location} {original : Node} (hnode : fs.get? (k ++ names) = some original) :
            Image caller start r given
              (Lookup.destined caller (given.target directory) ++ name :: names) original :=
          .copy hset hpattern hmatch hname (hstart names ▸ hnode)
        -- installing a match is copying a tree to one name behind the target
        let t : Transfer :=
          { caller, skip := [], source := p, destination := (given.target directory).join ⟨name⟩
            base := given.target directory, origin := k
            spot := Lookup.destined caller (given.target directory), front := [name]
            named := htext p hsource
            behind := Lookup.behind_join (htext _ htarget) (Path.isName_of_fileName? hname)
            apart := fun names _ hbelow => huntouched names ⟨_, hmem, .inr hbelow⟩ }
        have hplace (names : Location) : t.place ++ names =
            Lookup.destined caller (given.target directory) ++ name :: names :=
          List.append_assoc _ [name] names
        -- a link in the way would have to be an image, and images do not meet links
        have fits : t.Fits fs :=
          { wellFormed := reached.wellFormed
            leads := ⟨node, htarget, hkind⟩
            way := fun front hfront hne hproper =>
              absurd (Lookup.eq_nil_of_prefix_singleton hfront hproper) hne
            links := fun names _ text time hlink original horiginal =>
              reached.ne_link hlinks (himage horiginal) (hplace names ▸ hlink) }
        have hkept (names : Location) : Storage.Kept t.skip t.source names := fun _ _ => rfl
        refine (fits.makes_copyTree (hkept []) hsource).imp fun fs' hchanges => ?_
        -- the changes that copying makes are changes that installing makes, one by one
        induction hchanges with
        | refl => exact .refl
        | @tail before after hbefore hstep ih =>
            refine ih.tail ?_
            cases hstep with
            | @put names original kept source puts =>
                have hnow := Transfer.get?_origin_of_changes hbefore kept
                rw [source] at hnow
                rw [hplace] at puts ⊢
                exact .copy (hstart names ▸ hnow.symm) (huntouched names) source (himage hnow.symm) puts
            | way hfront hne hproper =>
                exact absurd (Lookup.eq_nil_of_prefix_singleton hfront hproper) hne
      · exact makes_copyTree_missing fun x hx => hfound ⟨x.1, x.2, hx⟩

/-- Installing everything that a pattern stands for. -/
theorem Reached.makes_installPattern (reached : Reached caller start r given fs)
    (hlinks : KeepsLinks caller start r given) (hset : (directory, patterns) ∈ sets r given)
    (hpattern : pattern ∈ patterns) (apart : Apart caller start r given pattern)
    (htarget : Lookup.find caller fs true (given.target directory) =
      .ok (Lookup.destined caller (given.target directory), node)) (hkind : node.kind = .directory) :
    Makes (Installs caller start r given) caller fs
      (installPattern r (given.target directory) pattern) fun _ _ => True := by
  unfold installPattern
  refine Makes.query.bind ?_
  rintro found fs - ⟨rfl, hfound⟩
  split
  · exact Makes.bind .throw fun _ _ _ h => absurd h id
  · refine Makes.countOver fun p hp fs₁ hchanges => ?_
    have reached₁ := reached.changes hchanges
    refine reached₁.makes_installMatch hlinks hset hpattern apart
      (find_of_installs (by simp [hkind]) htarget hchanges) hkind fun k top hfind => ?_
    exact ⟨fs, found, fs₁, top, reached.toFilled, Run.of_mapError_ok hfound, hp, reached₁.toFilled,
      hfind⟩

/-- Installing a set of files. -/
theorem Reached.makes_installSet (reached : Reached caller start r given fs)
    (hlinks : KeepsLinks caller start r given) (hset : (directory, patterns) ∈ sets r given)
    (apart : ∀ pattern ∈ patterns, Apart caller start r given pattern)
    (htext : patterns ≠ [] → (given.target directory).text ≠ "") :
    Makes (Installs caller start r given) caller fs
      (installSet r (given.target directory) patterns) fun _ _ => True := by
  unfold installSet
  split
  · exact .pure trivial
  · next hne =>
      have hne : patterns ≠ [] := by simpa using hne
      obtain ⟨first, hfirst⟩ := List.exists_mem_of_ne_nil patterns hne
      refine (reached.makes_createDirectories hlinks (mem_targets hset hfirst)
        (htext hne)).mapError.bind fun _ fs₁ h₁ hcreated => ?_
      obtain ⟨node, htarget, hkind⟩ := hcreated
      refine Makes.countOver fun pattern hpattern fs₂ h₂ => ?_
      exact (reached.changes (h₁.trans h₂)).makes_installPattern hlinks hset hpattern
        (apart pattern hpattern) (find_of_installs (by simp [hkind]) htarget h₂) hkind

/-- Installing, however it ends. -/
theorem changes_install (wf : start.WellFormed) (hlinks : KeepsLinks caller start r given)
    (apart : ∀ set ∈ sets r given, ∀ pattern ∈ set.2, Apart caller start r given pattern)
    (htext : ∀ target ∈ targets r given, target.text ≠ "") :
    ReflTransGen (Installs caller start r given) start ((install r given).exec caller start).2 := by
  rw [install_eq_countOver]
  refine Makes.changes (Q := fun _ _ => True) (Makes.countOver fun set hset fs hchanges => ?_)
  refine ((Reached.refl wf).changes hchanges).makes_installSet hlinks hset (apart set hset) fun hne => ?_
  obtain ⟨first, hfirst⟩ := List.exists_mem_of_ne_nil set.2 hne
  exact htext _ (mem_targets hset hfirst)

/-! ## What is installed -/

/-- Nothing is put deeper than a tree that was there, below a directory that is installed into. -/
theorem Image.length_le {depth : Nat} (image : Image caller start r given l original)
    (hstart : ∀ k node, start.get? k = some node → k.length ≤ depth)
    (htargets : ∀ target ∈ targets r given, (Lookup.destined caller target).length ≤ depth ∧
      ∀ k, Passes caller target k → k.length ≤ depth) : l.length ≤ 2 * depth + 1 := by
  cases image with
  | way htarget hpasses =>
      have hlength := (htargets _ htarget).2 l hpasses
      omega
  | copy hset hpattern _ _ horiginal =>
      have hlength := hstart _ _ horiginal
      have htarget := (htargets _ (mem_targets hset hpattern)).1
      rw [List.length_append] at hlength ⊢
      rw [List.length_cons]
      omega

/-- However installing ends, it has made changes of two sorts, one after the other: it has created
directories on the way, and it has put copies of nodes that were there before it began and that it has
not touched.  So nothing stands deeper than a tree that was there, below a directory that is installed
into. -/
theorem install_copies_start (wf : start.WellFormed) (hlinks : KeepsLinks caller start r given)
    (apart : ∀ set ∈ sets r given, ∀ pattern ∈ set.2, Apart caller start r given pattern)
    (htext : ∀ target ∈ targets r given, target.text ≠ "") :
    ReflTransGen (Installs caller start r given) start ((install r given).exec caller start).2 ∧
    ∀ depth, (∀ l node, start.get? l = some node → l.length ≤ depth) →
      (∀ target ∈ targets r given, (Lookup.destined caller target).length ≤ depth ∧
        ∀ l, Passes caller target l → l.length ≤ depth) →
      ∀ l node, ((install r given).exec caller start).2.get? l = some node →
        l.length ≤ 2 * depth + 1 := by
  have hchanges := changes_install wf hlinks apart htext
  refine ⟨hchanges, fun depth hstart htargets l node hnode => ?_⟩
  rcases ((Reached.refl wf).changes hchanges).origin l node hnode with hbefore | ⟨original, image, -⟩
  · have hlength := hstart l node hbefore
    omega
  · exact image.length_le hstart htargets

/-! ## Patterns that are names -/

/-- Names that lead to a node stand for that node, whatever has been installed. -/
theorem eq_of_matches_names {names : List String} {top : Location} {root : Node}
    (wf : start.WellFormed) (hroot : Lookup.find caller start true r.root = .ok (top, root))
    (hkind : root.kind = .directory) (hne : names ≠ []) (hnames : ∀ name ∈ names, Path.IsName name)
    (hplain : Glob.hasWildcards (Path.slashed names) = false)
    (hthere : start.get? (top ++ names) = some node)
    (h : Matches caller start r given (Path.slashed names) p l) :
    p = r.root.along names ∧ l = top ++ names := by
  obtain ⟨before, found, after, entry, -, hfound, hp, filled, hfind⟩ := h
  have htext := (Lookup.of_checkText_ok (Lookup.find_eq_ok_iff.1 hroot).1).1
  obtain ⟨rfl, -⟩ := Glob.eq_along_of_mem_expand htext hne hnames hplain hfound hp
  have hsame (m : Location) (other : Node) (hother : start.get? m = some other)
      (hotherKind : other.kind ≠ .file) : after.get? m = some other := by
    obtain ⟨node', hnode', -, hkeep⟩ := filled.stays m other hother
    rwa [hkeep hotherKind] at hnode'
  have hroot' := Lookup.find_of_same hsame (by simp [hkind]) hroot
  refine ⟨rfl, Lookup.eq_of_find_along hnames hroot' ?_ hne hfind⟩
  intro front hfront _ hproper text time hlink
  obtain ⟨directory, hdirectory, hdirectoryKind⟩ := wf.directory_above hthere
    ((List.prefix_append_right_inj top).2 hfront) (by simpa using hproper)
  rw [hsame _ directory hdirectory (by simp [hdirectoryKind])] at hlink
  rw [Option.some.inj hlink] at hdirectoryKind
  simp [Node.kind] at hdirectoryKind

/-! ## A destination in the project -/

/-- A release that installs a directory. -/
def directoryRelease : Release :=
  { Release.first with configuration := { install := { lib := ["a"], libdir := some ⟨"/l"⟩ } } }

/-- A destination in the root of the project. -/
def intoRoot : InstallDirectories where
  destination := some ⟨"/r/t"⟩

/-- A project with a directory that has a file and a link. -/
def directoryTree : FileSystem :=
  .ofNodes [
    (["r", "a", "l"], .link "x" 0),
    (["r", "a", "x"], .file Mode.file 0 [1]),
    (["r", "a"], .directory Mode.directory 0),
    (["r"], .directory Mode.directory 0)]

/-- The project whose directory is installed is in good shape. -/
theorem wellFormed_directoryTree : directoryTree.WellFormed :=
  FileSystem.wellFormed_ofNodes (by decide)

/-- The directory is installed into one target. -/
theorem targets_directoryRelease : targets directoryRelease intoRoot = [⟨"/r/t/l"⟩] := by
  decide +kernel

/-- One pattern is installed into one directory. -/
theorem eq_of_mem_sets (hset : (directory, patterns) ∈ sets directoryRelease intoRoot)
    (hpattern : pattern ∈ patterns) : directory = ⟨"/l"⟩ ∧ pattern = Path.slashed ["a"] := by
  have hsets : ∀ set ∈ sets directoryRelease intoRoot, ∀ pattern ∈ set.2,
      set.1 = ⟨"/l"⟩ ∧ pattern = Path.slashed ["a"] := by
    decide +kernel
  exact hsets _ hset pattern hpattern

/-- The target is inside the root of the project. -/
theorem destined_intoRoot :
    Lookup.destined .superuserAtRoot (intoRoot.target ⟨"/l"⟩) = ["r", "t", "l"] := by
  decide +kernel

/-- The path of the target passes the directories above it and nothing else. -/
theorem passes_intoRoot (h : Passes .superuserAtRoot ⟨"/r/t/l"⟩ l) :
    l = ["r"] ∨ l = ["r", "t"] ∨ l = ["r", "t", "l"] := by
  obtain ⟨front, hfront, hne, rfl⟩ := h
  have hinits : ∀ front ∈ (Lookup.course ⟨"/r/t/l"⟩).inits, front ≠ [] →
      Lookup.onward (Lookup.start .superuserAtRoot "/r/t/l") front = ["r"] ∨
      Lookup.onward (Lookup.start .superuserAtRoot "/r/t/l") front = ["r", "t"] ∨
      Lookup.onward (Lookup.start .superuserAtRoot "/r/t/l") front = ["r", "t", "l"] := by
    decide +kernel
  exact hinits front ((List.mem_inits _ _).2 hfront) hne

/-- The pattern stands for the directory, and leads to it. -/
theorem location_of_matches
    (h : Matches .superuserAtRoot directoryTree directoryRelease intoRoot (Path.slashed ["a"]) p l) :
    p = ⟨"/r/a"⟩ ∧ l = ["r", "a"] := by
  have hroot : Lookup.find .superuserAtRoot directoryTree true directoryRelease.root =
      .ok (["r"], .directory Mode.directory 0) := by
    decide +kernel
  have hthere : directoryTree.get? (["r"] ++ ["a"]) = some (.directory Mode.directory 0) := by
    decide +kernel
  exact eq_of_matches_names wellFormed_directoryTree hroot rfl (by simp) (by decide)
    (by decide +kernel) hthere h

/-- The directory is apart from the target. -/
theorem apart_directoryRelease : ∀ set ∈ sets directoryRelease intoRoot, ∀ pattern ∈ set.2,
    Apart .superuserAtRoot directoryTree directoryRelease intoRoot pattern := by
  rintro ⟨directory, patterns⟩ hset pattern hpattern
  obtain ⟨rfl, rfl⟩ := eq_of_mem_sets hset hpattern
  rintro p l hmatches names ⟨target, htarget, htouched⟩
  obtain ⟨rfl, rfl⟩ := location_of_matches hmatches
  rw [targets_directoryRelease, List.mem_singleton] at htarget
  subst htarget
  rcases htouched with hpasses | hbelow
  · rcases passes_intoRoot hpasses with h | h | h <;> simp at h
  · rw [show Lookup.destined .superuserAtRoot ⟨"/r/t/l"⟩ = ["r", "t", "l"] by decide +kernel] at hbelow
    simp [List.cons_prefix_cons] at hbelow

/-- What is installed is a directory on the way, or has the names of what it is the copy of. -/
theorem image_directoryRelease
    (h : Image .superuserAtRoot directoryTree directoryRelease intoRoot l original) :
    (Passes .superuserAtRoot ⟨"/r/t/l"⟩ l ∧ original.kind = .directory) ∨
      ∃ names, l = ["r", "t", "l", "a"] ++ names ∧
        directoryTree.get? (["r", "a"] ++ names) = some original := by
  cases h with
  | way htarget hpasses =>
      rw [targets_directoryRelease, List.mem_singleton] at htarget
      subst htarget
      exact .inl ⟨hpasses, rfl⟩
  | @copy directory patterns pattern p name k names original hset hpattern hmatches hname horiginal =>
      obtain ⟨rfl, rfl⟩ := eq_of_mem_sets hset hpattern
      obtain ⟨rfl, rfl⟩ := location_of_matches hmatches
      obtain rfl : name = "a" := by
        have hfileName : (⟨"/r/a"⟩ : Path).fileName? = some "a" := by decide +kernel
        exact Option.some.inj (hname.symm.trans hfileName)
      exact .inr ⟨names, by rw [destined_intoRoot]; rfl, horiginal⟩

/-- No link of the project is in the way. -/
theorem keepsLinks_directoryRelease :
    KeepsLinks .superuserAtRoot directoryTree directoryRelease intoRoot := by
  have hlinks : ∀ l node, directoryTree.get? l = some node → node.kind = .link → l = ["r", "a", "l"] :=
    FileSystem.forall_ofNodes (by decide) (by decide)
  intro l original image text time hlink
  rcases image_directoryRelease image with ⟨hpasses, hkind⟩ | ⟨names, rfl, horiginal⟩
  · rcases hlink with hbefore | hput
    · obtain rfl := hlinks l _ hbefore rfl
      rcases passes_intoRoot hpasses with h | h | h <;> simp at h
    · rcases image_directoryRelease hput with ⟨-, hother⟩ | ⟨names, rfl, -⟩
      · simp [Node.kind] at hother
      · rcases passes_intoRoot hpasses with h | h | h <;> simp at h
  · rcases hlink with hbefore | hput
    · simpa using hlinks _ _ hbefore rfl
    · rcases image_directoryRelease hput with ⟨hpasses, -⟩ | ⟨others, heq, hother⟩
      · rcases passes_intoRoot hpasses with h | h | h <;> simp at h
      · obtain rfl := List.append_cancel_left heq
        rw [Option.some.inj (horiginal.symm.trans hother)]
        rfl

/-- The directory is installed below the root of the project that it is in. -/
theorem install_copies_start_intoRoot : ∃ fs',
    (install directoryRelease intoRoot).exec .superuserAtRoot directoryTree = (.ok 2, fs') ∧
    ReflTransGen (Installs .superuserAtRoot directoryTree directoryRelease intoRoot) directoryTree fs' ∧
    ∀ l node, fs'.get? l = some node → l.length ≤ 7 := by
  have htext : ∀ target ∈ targets directoryRelease intoRoot, target.text ≠ "" := by
    decide +kernel
  obtain ⟨hchanges, hdepth⟩ := install_copies_start wellFormed_directoryTree keepsLinks_directoryRelease
    apart_directoryRelease htext
  refine ⟨_, Storage.exec_eq_of_outcome (by decide +kernel), hchanges, hdepth 3 ?_ ?_⟩
  · exact FileSystem.forall_ofNodes (by decide) (by decide)
  · rw [targets_directoryRelease]
    intro target htarget
    obtain rfl := List.mem_singleton.1 htarget
    refine ⟨by decide +kernel, fun l hpasses => ?_⟩
    rcases passes_intoRoot hpasses with rfl | rfl | rfl <;> simp

/-! ## A directory that is installed into and installed -/

/-- A release that installs a file into a directory and then the directory. -/
def feedingRelease : Release :=
  { Release.first with
    configuration := { install := {
      bin := ["f"], lib := ["d"], bindir := some ⟨"/d"⟩, libdir := some ⟨"/e"⟩ } } }

/-- A project with a file and a directory with a file. -/
def feedingTree : FileSystem :=
  .ofNodes [
    (["r", "d", "g"], .file Mode.file 0 [2]),
    (["r", "d"], .directory Mode.directory 0),
    (["r", "f"], .file Mode.file 0 [1]),
    (["r"], .directory Mode.directory 0)]

/-- The copy of the file in the directory is copied again with the directory. -/
theorem install_copies_copy : feedingTree.WellFormed ∧
    feedingTree.get? ["r", "d", "f"] = none ∧
    ∃ fs', (install feedingRelease { destination := some ⟨"/r"⟩ }).exec .superuserAtRoot feedingTree =
        (.ok 3, fs') ∧
      fs'.get? ["r", "d", "f"] = some (.file Mode.file 0 [1]) ∧
      fs'.get? ["r", "e", "d", "f"] = some (.file Mode.file 0 [1]) := by
  exact ⟨FileSystem.wellFormed_ofNodes (by decide), by decide +kernel, _,
    Storage.exec_eq_of_outcome (by decide +kernel), by decide +kernel, by decide +kernel⟩

end RpmRelease.Project
