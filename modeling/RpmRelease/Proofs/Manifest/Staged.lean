import RpmRelease.Proofs.FileSystem.Recopying
import RpmRelease.Proofs.Manifest.Confinement

/-!
# What has been staged

Copying a match of the manifest is the transfer of a tree behind the staging directory.  So staging puts
exact copies only, and where it succeeds it has come by everything at and below its matches.  What it has
come by in this way, it can come by again; and when that is only directories and files that the caller
may write to, a match is staged once more without any change.
-/

set_option autoImplicit false

namespace RpmRelease.Manifest.Layout

open Relation (ReflTransGen)
open Lookup (Behind NoLinks Way)
open Storage (Kept Transfer)

variable {y : Layout} {caller : Caller} {fs fs' : FileSystem} {names more : Location}
  {p destination : Path} {node : Node}

/-! ## Matches as transfers -/

/-- What is free is nowhere in the staging directory. -/
def Apart (y : Layout) : Prop :=
  ∀ names, y.Free names → ¬ y.target <+: y.source ++ names

/-- Names in front of names that lead to no output do not lead to one either. -/
theorem Free.front (h : y.Free (names ++ more)) : y.Free names := by
  intro output hmem hbegin
  refine h output hmem (hbegin.trans ((List.prefix_append_right_inj _).2 ?_))
  exact (List.prefix_append names more).map _

/-- What the walk of a match meets is free. -/
theorem Match.free_of_kept (m : y.Match names p destination) (hp : p.text ≠ "")
    (h : Kept y.outputs p more) : y.Free (names ++ more) := by
  intro output hmem hbegin
  have hbehind : p.components = y.root.components ++ names.map .normal := m.behind
  rw [List.map_append, ← List.append_assoc, ← hbehind] at hbegin
  rcases prefix_or_behind hbegin with hbefore | ⟨front, hfront, -, hself⟩
  · exact m.free output hmem (hbehind ▸ hbefore)
  · have hnames : ∀ name ∈ front, Path.IsName name := fun name hname =>
      Path.isName_of_mem_components (hself ▸ List.mem_append_right _ (List.mem_map_of_mem hname))
    have hkept := List.any_eq_false.1 (h front hfront) output hmem
    have hcomponents : (p.along front).components = output.components :=
      (Path.components_along hp hnames).1.trans hself.symm
    simp [Path.same, hcomponents] at hkept

/-- What is free below a match is met by its walk. -/
theorem Match.kept_of_free (m : y.Match names p destination) (hp : p.text ≠ "")
    (hmore : ∀ name ∈ more, Path.IsName name) (h : y.Free (names ++ more)) : Kept y.outputs p more := by
  intro front hfront
  refine List.any_eq_false.2 fun output hmem hsame => ?_
  have hnames : ∀ name ∈ front, Path.IsName name := fun name hname => hmore name (hfront.mem hname)
  have hcomponents : (p.along front).components = output.components := by
    simpa [Path.same] using hsame
  have hbehind : p.components = y.root.components ++ names.map .normal := m.behind
  refine h output hmem ?_
  rw [← hcomponents, (Path.components_along hp hnames).1, hbehind, List.map_append, ← List.append_assoc]
  exact (List.prefix_append_right_inj _).2 (hfront.map _)

/-- The top of a match is kept. -/
theorem Match.kept (m : y.Match names p destination) : Kept y.outputs p [] := by
  intro front hfront
  obtain rfl := List.prefix_nil.1 hfront
  refine List.any_eq_false.2 fun output hmem hsame => m.free output hmem ?_
  have hbehind : p.components = y.root.components ++ names.map .normal := m.behind
  have hcomponents : p.components = output.components := by simpa [Path.same, Path.along] using hsame
  rw [← hbehind, hcomponents]

/-- The transfer that copying a match is. -/
def Match.transfer (m : y.Match names p destination) (caller : Caller) (hp : p.text ≠ "")
    (apart : y.Apart) : Transfer where
  caller := caller
  skip := y.outputs
  source := p
  destination := destination
  base := y.staging
  origin := y.source ++ names
  spot := y.target
  front := names
  named := hp
  behind := m.copied
  apart := by
    intro more hkept
    rw [List.append_assoc]
    exact apart _ (m.free_of_kept hp hkept)

/-- Where the staging directory is ready, a match can be copied. -/
theorem Ready.fits (ready : y.Ready caller fs) (m : y.Match names p destination) (hp : p.text ≠ "")
    (apart : y.Apart) (hnode : fs.get? (y.source ++ names) = some node) :
    (m.transfer caller hp apart).Fits fs where
  wellFormed := ready.wellFormed
  leads := ready.staging
  way := ready.noLinks hnode
  links := by
    intro more hkept target time hlink other hother
    have hlink' : fs.get? (y.target ++ (names ++ more)) = some (.link target time) := by
      rw [← List.append_assoc]
      exact hlink
    obtain ⟨linked, hlinked, hkind⟩ := ready.links _ _ hlink' rfl
    rw [← List.append_assoc] at hlinked
    have hother' : fs.get? (y.source ++ names ++ more) = some other := hother
    rwa [Option.some.inj (hother'.symm.trans hlinked)]

/-! ## What staging changes -/

/-- A single change that staging makes: the copy of a node is put under the names that the node has
behind the root. -/
inductive Stages (y : Layout) (caller : Caller) (fs : FileSystem) : FileSystem → Prop
  | put {names : Location} {original : Node} (nonempty : names ≠ [])
      (source : fs.get? (y.source ++ names) = some original) (free : y.Free names)
      (puts : fs.Puts (y.target ++ names) (original.copied caller)) :
      Stages y caller fs (fs.set (y.target ++ names) (original.copied caller))

/-- Each change that staging makes puts a copy. -/
theorem Stages.copies (h : y.Stages caller fs fs') : y.Copies fs fs' := by
  cases h with
  | @put names original nonempty source free puts =>
      exact .put nonempty source free puts (Node.kind_copied caller original)
        fun _ => original.copied_copyOf caller

/-- All changes that staging makes put nodes. -/
theorem putting_of_changes (h : ReflTransGen (y.Stages caller) fs fs') :
    ReflTransGen FileSystem.Putting fs fs' := by
  refine h.lift id fun before after hstep => ?_
  cases hstep with
  | put _ _ _ puts => exact ⟨_, _, puts, rfl⟩

/-- All changes that staging makes put copies. -/
theorem copies_of_changes (h : ReflTransGen (y.Stages caller) fs fs') : ReflTransGen y.Copies fs fs' :=
  h.lift id fun _ _ hstep => hstep.copies

/-- Copying a match makes no other changes. -/
theorem Ready.stages_of_step (ready : y.Ready caller fs) (m : y.Match names p destination)
    (hp : p.text ≠ "") (apart : y.Apart) (hnode : fs.get? (y.source ++ names) = some node)
    (h : (m.transfer caller hp apart).Step fs fs') : y.Stages caller fs fs' := by
  cases h with
  | @put more original kept source puts =>
      have hfree := m.free_of_kept hp kept
      have hplace : (m.transfer caller hp apart).place ++ more = y.target ++ (names ++ more) :=
        List.append_assoc _ _ _
      have hsource : fs.get? (y.source ++ (names ++ more)) = some original := by
        rw [← List.append_assoc]
        exact source
      rw [hplace] at puts ⊢
      refine .put (fun hnil => ?_) hsource hfree puts
      -- the staging directory itself is not replaced
      obtain ⟨directory, hstaging, hkind⟩ := ready.staging
      have hthere := Lookup.get?_of_find hstaging
      rw [hnil, List.append_nil] at puts
      simp [(puts.replaces directory hthere).1] at hkind
  | @way others before nonempty proper vacant puts =>
      have hproper : others ≠ names := proper
      obtain ⟨rest, rfl⟩ : others <+: names := before
      obtain ⟨directory, hdirectory, hkind⟩ := ready.wellFormed.directory_above hnode
        ((List.prefix_append_right_inj y.source).2 (List.prefix_append others rest))
        (by simpa using hproper)
      have hcopied : directory.copied caller = .directory Mode.directory caller.now :=
        Node.copied_of_directory hkind
      have puts' : fs.Puts (y.target ++ others) (directory.copied caller) := by
        rw [hcopied]
        exact puts
      have hstages := Stages.put nonempty hdirectory m.free.front puts'
      rw [hcopied] at hstages
      exact hstages

/-- Copying a match makes the changes that staging may make. -/
theorem Ready.stages_of_changes (ready : y.Ready caller fs) (m : y.Match names p destination)
    (hp : p.text ≠ "") (apart : y.Apart) (hnode : fs.get? (y.source ++ names) = some node)
    (h : ReflTransGen (m.transfer caller hp apart).Step fs fs') :
    ReflTransGen (y.Stages caller) fs fs' := by
  induction h with
  | refl => exact .refl
  | @tail middle fs' hchanges hstep ih =>
      have hsame := Transfer.get?_origin_of_changes hchanges m.kept
      rw [List.append_nil] at hsame
      exact ih.tail ((ready.changes (copies_of_changes ih)).stages_of_step m hp apart
        (hsame.trans hnode) hstep)

/-- What is free stays as it is. -/
theorem get?_source_of_changes (apart : y.Apart) (h : ReflTransGen (y.Stages caller) fs fs')
    (free : y.Free names) : fs'.get? (y.source ++ names) = fs.get? (y.source ++ names) := by
  induction h with
  | refl => rfl
  | tail _ hstep ih =>
      cases hstep with
      | @put others original nonempty source _ puts =>
          have hne : y.target ++ others ≠ y.source ++ names := fun heq =>
            apart names free (heq ▸ List.prefix_append _ _)
          rw [FileSystem.get?_set, if_neg hne, ih]

/-- Everything that is put behind an empty staging directory is a copy. -/
theorem copied_of_changes (apart : y.Apart) (hempty : fs.below y.target = [])
    (h : ReflTransGen (y.Stages caller) fs fs') :
    ∀ names copy, names ≠ [] → fs'.get? (y.target ++ names) = some copy →
      y.Free names ∧ ∃ original, fs.get? (y.source ++ names) = some original ∧
        copy = original.copied caller := by
  induction h with
  | refl =>
      intro names copy hne hcopy
      simp [get?_of_below_nil hempty hne] at hcopy
  | @tail middle fs' hchanges hstep ih =>
      cases hstep with
      | @put names original _ hsource free _ =>
          intro others other hne hother
          rw [FileSystem.get?_set] at hother
          split at hother
          · next hsame =>
              obtain rfl := List.append_cancel_left hsame
              exact ⟨free, original, (get?_source_of_changes apart hchanges free).symm.trans hsource,
                (Option.some.inj hother).symm⟩
          · exact ih others other hne hother

/-! ## What staging has come by -/

/-- Everything at and below some names has been read and is behind the staging directory, but for
links. -/
def Done (y : Layout) (caller : Caller) (fs : FileSystem) (above : Location) : Prop :=
  ∀ more node, y.Free (above ++ more) → fs.get? (y.source ++ (above ++ more)) = some node →
    node.kind ≠ .link →
      (fs.get? (y.target ++ (above ++ more))).isSome ∧ caller.may .read node = true ∧
        Way caller fs y.target (above ++ more) ∧ Way caller fs (y.source ++ above) more

/-- What is behind names that are done is done. -/
theorem Done.behind (h : y.Done caller fs names) : y.Done caller fs (names ++ more) := by
  intro rest node hfree hnode hkind
  rw [List.append_assoc] at hfree hnode ⊢
  obtain ⟨hthere, hread, hway, hreached⟩ := h (more ++ rest) node hfree hnode hkind
  refine ⟨hthere, hread, hway, ?_⟩
  rw [← List.append_assoc]
  exact hreached.behind

/-- Names that are done stay so while staging goes on. -/
theorem Done.changes (apart : y.Apart) (h : y.Done caller fs names)
    (hchanges : ReflTransGen (y.Stages caller) fs fs') : y.Done caller fs' names := by
  intro more node hfree hnode hkind
  rw [get?_source_of_changes apart hchanges hfree] at hnode
  obtain ⟨hthere, hread, hway, hreached⟩ := h more node hfree hnode hkind
  have hputting := putting_of_changes hchanges
  exact ⟨FileSystem.isSome_of_putting hthere hputting, hread, hway.changes hputting,
    hreached.changes hputting⟩

/-- Where a match has been copied, everything at and below it has been come by. -/
theorem Match.done_of_completed (m : y.Match names p destination) (hp : p.text ≠ "") (apart : y.Apart)
    (wf : fs.WellFormed) (h : (m.transfer caller hp apart).Completed fs []) : y.Done caller fs names := by
  intro more node hfree hnode hkind
  rw [← List.append_assoc] at hnode ⊢
  have hmore : ∀ name ∈ more, Path.IsName name := fun name hname =>
    wf.isName _ node hnode name (List.mem_append_right _ hname)
  obtain ⟨hthere, hread, hway, hreached⟩ := h more node (m.kept_of_free hp hmore hfree) hnode hkind
  exact ⟨hthere, hread, hway, hreached⟩

/-! ## Runs over a manifest -/

variable {r : Release} {source target : Location} {manifest : List String} {q : Path} {n : Nat}

/-- The staging directory has a path that is not empty. -/
theorem Ready.staging_ne (ready : y.Ready caller fs) : y.staging.text ≠ "" := by
  obtain ⟨directory, hstaging, -⟩ := ready.staging
  exact (Lookup.of_checkText_ok (Lookup.find_eq_ok_iff.1 hstaging).1).1

/-- A part of a straight manifest stays straight while staging goes on. -/
theorem StraightManifest.changes {entries : List String} (h : y.StraightManifest caller fs manifest)
    (hentries : entries ⊆ manifest) (hchanges : ReflTransGen (y.Stages caller) fs fs') :
    y.StraightManifest caller fs' entries := by
  have hsame := sameOutside_of_changes (copies_of_changes hchanges)
  exact fun fs₂ wf hsame' entry hentry =>
    h fs₂ wf (fun l hl => (hsame' l hl).trans (hsame l hl)) entry (hentries hentry)

/-- An entry of a straight manifest is straight where staging has come to. -/
theorem StraightManifest.entry {entry : String} (h : y.StraightManifest caller fs manifest)
    (ready : y.Ready caller fs) (hentry : entry ∈ manifest) : y.StraightEntry caller fs entry :=
  h fs ready.wellFormed (fun _ _ => rfl) entry hentry

section Match

variable (hroot : r.root.text ≠ "") (apart : (ofRelease r source target).Apart)
  (ready : (ofRelease r source target).Ready caller fs)

include hroot apart ready

/-- Copying what one match leads to puts copies. -/
theorem Ready.stages_stageMatch (straight : ¬ r.outputs.any p.startsWith = true →
      (ofRelease r source target).Straight caller fs p) :
    Storage.Makes ((ofRelease r source target).Stages caller) caller fs
      (stageMatch r r.stagingDirectory r.outputs p) fun _ _ => True := by
  unfold stageMatch
  split
  · exact .pure trivial
  · next hskip =>
      obtain ⟨names, node, hbehind, hfind⟩ := straight hskip
      obtain ⟨rest, hbelow, m⟩ := exists_match hroot ready.staging_ne hskip hbehind
      have hp := hbehind.text_ne_empty hroot
      have hnode := Lookup.get?_of_find hfind
      have hmakes := (ready.fits m hp apart hnode).makes_copyTree m.kept hfind
      rw [hbelow]
      exact (hmakes.imp fun _ => ready.stages_of_changes m hp apart hnode).mapError

/-- Copying the matches of an entry puts copies. -/
theorem Ready.stages_stageEntry {entry : String}
    (straight : (ofRelease r source target).StraightEntry caller fs entry) :
    Storage.Makes ((ofRelease r source target).Stages caller) caller fs
      (stageEntry r r.stagingDirectory entry) fun _ _ => True :=
  ready.makes_stageEntry Stages.copies (fun ready => ready.stages_stageMatch hroot apart) straight

/-- Copying the entries of a manifest puts copies. -/
theorem Ready.stages_stage (straight : (ofRelease r source target).StraightManifest caller fs manifest) :
    Storage.Makes ((ofRelease r source target).Stages caller) caller fs
      (stage r r.stagingDirectory manifest) fun _ _ => True :=
  ready.makes_stage Stages.copies (fun ready => ready.stages_stageMatch hroot apart) straight

/-- Where a match has been staged, everything at and below it has been come by. -/
theorem Ready.done_of_stageMatch (hskip : ¬ r.outputs.any p.startsWith = true)
    (hbehind : Behind r.root names p)
    (hfind : Lookup.find caller fs false p = .ok (source ++ names, node))
    (h : (stageMatch r r.stagingDirectory r.outputs p).exec caller fs = (.ok n, fs')) :
    (ofRelease r source target).Done caller fs' names := by
  obtain ⟨rest, hbelow, m⟩ := exists_match hroot ready.staging_ne hskip hbehind
  have hp := hbehind.text_ne_empty hroot
  have fits := ready.fits m hp apart (Lookup.get?_of_find hfind)
  rw [stageMatch, if_neg hskip, hbelow] at h
  have hcopy : (Storage.copyTree (m.transfer caller hp apart).skip (m.transfer caller hp apart).source
      (m.transfer caller hp apart).destination).exec (m.transfer caller hp apart).caller fs =
      (.ok n, fs') := Storage.of_exec_mapError_ok h
  have hchanges := (fits.makes_copyTree m.kept hfind).changes_of_exec hcopy
  exact m.done_of_completed hp apart (fits.changes hchanges).wellFormed
    (fits.completed_of_copyTree m.kept hfind hcopy)

/-- Where an entry has been staged, everything at and below its matches has been come by. -/
theorem Ready.done_of_stageEntry {entry : String} {found : List Path}
    (straight : (ofRelease r source target).StraightEntry caller fs entry)
    (hfound : Glob.expand caller fs r.root entry = .ok found) (hq : q ∈ found)
    (hskip : ¬ r.outputs.any q.startsWith = true)
    (h : (stageEntry r r.stagingDirectory entry).exec caller fs = (.ok n, fs')) :
    ∃ names, Behind r.root names q ∧ (ofRelease r source target).Done caller fs' names := by
  obtain ⟨found', _, hexpand, hrest⟩ := Storage.of_exec_bind_ok h
  obtain ⟨hquery, rfl⟩ := Storage.of_exec_query_ok hexpand
  obtain rfl : found = found' := Except.ok.inj (hfound.symm.trans (Run.of_mapError_ok hquery))
  obtain ⟨-, hcount⟩ := Storage.of_exec_check_ok hrest
  have hstraight {fs₁ : FileSystem}
      (hchanges : ReflTransGen ((ofRelease r source target).Stages caller) fs fs₁) {p : Path}
      (hp : p ∈ found) (hp' : ¬ r.outputs.any p.startsWith = true) :
      (ofRelease r source target).Straight caller fs₁ p :=
    (straight found hfound p hp hp').changes (copies_of_changes hchanges)
  obtain ⟨fs₁, m, fs₂, hbefore, hrun, hafter⟩ := Storage.exists_exec_of_countOver_ok
    (fun p hp fs₁ hchanges => (ready.changes (copies_of_changes hchanges)).stages_stageMatch hroot
      apart (hstraight hchanges hp)) hcount q hq
  obtain ⟨names, node, hbehind, hfind⟩ := hstraight hbefore hq hskip
  have ready₁ := ready.changes (copies_of_changes hbefore)
  exact ⟨names, hbehind,
    (ready₁.done_of_stageMatch hroot apart hskip hbehind hfind hrun).changes apart hafter⟩

end Match

end RpmRelease.Manifest.Layout

namespace RpmRelease.Manifest

open Relation (ReflTransGen)
open Lookup (Behind)

variable {caller : Caller} {fs fs' : FileSystem} {r : Release} {source target : Location}
  {manifest : List String} {p q : Path} {n : Nat}

/-- A path is among those that an entry of a manifest stands for when it is its turn. -/
def Matched (caller : Caller) (fs : FileSystem) (r : Release) (manifest : List String) (q : Path) : Prop :=
  ∃ front entry rest, manifest = front ++ entry :: rest ∧ ∃ n middle found,
    (stage r r.stagingDirectory front).exec caller fs = (.ok n, middle) ∧
    Glob.expand caller middle r.root entry = .ok found ∧ q ∈ found

/-- Where a manifest has been staged, everything at and below its matches has been come by. -/
theorem done_of_stage (hroot : r.root.text ≠ "") (apart : (Layout.ofRelease r source target).Apart)
    (ready : (Layout.ofRelease r source target).Ready caller fs)
    (straight : (Layout.ofRelease r source target).StraightManifest caller fs manifest)
    (h : (stage r r.stagingDirectory manifest).exec caller fs = (.ok n, fs'))
    (hmatched : Matched caller fs r manifest q) (hskip : ¬ r.outputs.any q.startsWith = true) :
    ∃ names, Behind r.root names q ∧ (Layout.ofRelease r source target).Done caller fs' names := by
  obtain ⟨front, entry, rest, rfl, m, middle, found, hfront, hfound, hq⟩ := hmatched
  have hparts : front ⊆ front ++ entry :: rest ∧ [entry] ⊆ front ++ entry :: rest ∧
      rest ⊆ front ++ entry :: rest := by
    simp
  obtain ⟨_, _, middle', hfront', hlater⟩ := Storage.of_exec_countOver_append_ok h
  obtain ⟨-, rfl⟩ := Run.ok_inj (hfront'.symm.trans hfront)
  obtain ⟨_, _, after, hentry, hrest⟩ := Storage.of_exec_countOver_cons_ok hlater
  have hbefore :=
    (ready.stages_stage hroot apart (straight.changes hparts.1 .refl)).changes_of_exec hfront
  have ready₁ := ready.changes (Layout.copies_of_changes hbefore)
  have straight₁ := (straight.changes hparts.2.1 hbefore).entry ready₁ (List.mem_singleton_self entry)
  have hduring := (ready₁.stages_stageEntry hroot apart straight₁).changes_of_exec hentry
  have ready₂ := ready₁.changes (Layout.copies_of_changes hduring)
  obtain ⟨names, hbehind, hdone⟩ := ready₁.done_of_stageEntry hroot apart straight₁ hfound hq hskip hentry
  have hafter := (ready₂.stages_stage hroot apart
    (straight.changes hparts.2.2 (hbefore.trans hduring))).changes_of_exec hrest
  exact ⟨names, hbehind, hdone.changes apart hafter⟩

end RpmRelease.Manifest
