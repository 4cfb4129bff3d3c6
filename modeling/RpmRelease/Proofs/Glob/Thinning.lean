import RpmRelease.Proofs.FileSystem.Thinning
import RpmRelease.Proofs.Glob

/-!
# What a pattern stands for among fewer files

When what leads to files is taken away, a pattern stands for some of the paths that it stood for before.
A search fails only where it cannot list a directory, and in a thinner file system it meets the same
directories; so it still succeeds, and it finds nothing new.
-/

set_option autoImplicit false

namespace RpmRelease.Glob

open FileSystem (Thinned)

variable {ε : Type} {caller : Caller} {fs fs' : FileSystem}

/-! ## Results with fewer paths -/

/-- If the second result is a list of paths, the first one is a list of some of them. -/
def Fewer (x' x : Except ε (List Path)) : Prop :=
  ∀ found, x = .ok found → ∃ fewer, x' = .ok fewer ∧ fewer ⊆ found

namespace Fewer

/-- The same is found as is found. -/
theorem refl (x : Except ε (List Path)) : Fewer x x :=
  fun found h => ⟨found, h, List.Subset.refl found⟩

/-- Nothing is less than whatever is found. -/
theorem nothing (x : Except ε (List Path)) : Fewer (.ok []) x :=
  fun found _ => ⟨[], rfl, List.nil_subset found⟩

/-- Fewer paths together with fewer paths are fewer. -/
theorem append {x' x y' y : Except ε (List Path)} (hx : Fewer x' x) (hy : Fewer y' y) :
    Fewer (do let a ← x'; let b ← y'; return a ++ b) (do let a ← x; let b ← y; return a ++ b) := by
  intro found h
  obtain ⟨a, ha, h⟩ := Run.of_bind_ok h
  obtain ⟨b, hb, h⟩ := Run.of_bind_ok h
  obtain rfl := Except.ok.inj h
  obtain ⟨a', ha', hsubset⟩ := hx a ha
  obtain ⟨b', hb', hsubset'⟩ := hy b hb
  refine ⟨a' ++ b', by rw [ha', hb']; rfl, ?_⟩
  exact List.append_subset.2 ⟨List.Subset.trans hsubset (List.subset_append_left a b),
    List.Subset.trans hsubset' (List.subset_append_right a b)⟩

/-- Fewer items, with fewer paths for each of them. -/
theorem flatten_mapM {ι : Type} {f' f : ι → Except ε (List Path)} {items' items : List ι}
    (hitems : items' ⊆ items) (h : ∀ item, Fewer (f' item) (f item)) :
    Fewer (List.flatten <$> items'.mapM f') (List.flatten <$> items.mapM f) := by
  intro found hfound
  obtain ⟨lists, hlists, rfl⟩ := Run.of_map_ok hfound
  have hall := FileSystem.forall₂_of_mapM hlists
  induction items' with
  | nil => exact nothing _ _ hfound
  | cons item items' ih =>
      obtain ⟨hitem, hitems⟩ := List.cons_subset.1 hitems
      obtain ⟨list, hmem, hlist⟩ := FileSystem.exists_of_forall₂ hall hitem
      obtain ⟨first, hfirst, hsubset⟩ := h item list hlist
      obtain ⟨others, hothers, hsubset'⟩ := ih hitems
      obtain ⟨lists', hlists', rfl⟩ := Run.of_map_ok hothers
      refine ⟨first ++ lists'.flatten, by rw [List.mapM_cons, hfirst, hlists']; rfl, ?_⟩
      exact List.append_subset.2 ⟨fun p hp => List.mem_flatten_of_mem hmem (hsubset hp), hsubset'⟩

/-- Fewer paths are fewer in order, too. -/
theorem map_sort {x' x : Except ε (List Path)} (h : Fewer x' x) :
    Fewer (x'.map Path.sort) (x.map Path.sort) := by
  intro found hfound
  obtain ⟨unsorted, hunsorted, rfl⟩ := Run.of_map_ok hfound
  obtain ⟨fewer, hfewer, hsubset⟩ := h unsorted hunsorted
  refine ⟨Path.sort fewer, by rw [hfewer]; rfl, fun p hp => ?_⟩
  exact (List.mergeSort_perm unsorted _).mem_iff.2 (hsubset ((List.mergeSort_perm fewer _).mem_iff.1 hp))

/-- Fewer paths are fewer when errors are turned into others. -/
theorem mapError {δ : Type} {f : ε → δ} {x' x : Except ε (List Path)} (h : Fewer x' x) :
    Fewer (x'.mapError f) (x.mapError f) := by
  intro found hfound
  obtain ⟨fewer, hfewer, hsubset⟩ := h found (Run.of_mapError_ok hfound)
  exact ⟨fewer, by rw [hfewer]; rfl, hsubset⟩

end Fewer

/-! ## Searching -/

section Search

variable {directoriesOnly : Bool} {steps : Nat}

/-- A path is the same candidate when files are lost. -/
theorem Candidate.ofPath_thinned (h : Thinned caller fs' fs) (path : Path) :
    ofPath caller fs' path = ofPath caller fs path := by
  rw [ofPath, ofPath, h.isDirectory_eq]

/-- An entry is the same candidate when files are lost. -/
theorem Candidate.ofEntry_thinned (h : Thinned caller fs' fs) (directory : Path) (name : String)
    (node : Node) : ofEntry caller fs' directory name node = ofEntry caller fs directory name node := by
  rw [ofEntry, ofEntry, ofPath_thinned h]

/-- A search in a thinner file system does not go on where it has not gone on before. -/
theorem goesOn_thinned (h : Thinned caller fs' fs) {text : List Char} {c : Candidate}
    (hgoes : goesOn caller fs' text c = true) : goesOn caller fs text c = true := by
  rw [goesOn] at hgoes ⊢
  by_cases hspecial : (text == ['.'] || text == ['.', '.']) = true
  · rw [if_pos hspecial] at hgoes ⊢
    exact hgoes
  · rw [if_neg hspecial] at hgoes ⊢
    obtain ⟨follow, ⟨l, node⟩, hfind⟩ := stands_iff.1 hgoes
    exact stands_iff.2 ⟨follow, (l, node), Lookup.find_within h.within hfind⟩

/-- Searches of some length find fewer paths. -/
def SearchesFewer (caller : Caller) (fs' fs : FileSystem) (directoriesOnly : Bool) (steps : Nat) : Prop :=
  ∀ pattern c, Fewer (search caller fs' directoriesOnly steps pattern c)
    (search caller fs directoriesOnly steps pattern c)

namespace SearchesFewer

/-- A search finds no more through an entry when files are lost, if shorter searches do not. -/
theorem entry (ih : SearchesFewer caller fs' fs directoriesOnly steps) (h : Thinned caller fs' fs)
    (first : Component) (rest : List Component) (path : Path) (item : String × Node) :
    Fewer (searchEntry caller fs' directoriesOnly steps first rest path item)
      (searchEntry caller fs directoriesOnly steps first rest path item) := by
  rw [searchEntry, searchEntry, Candidate.ofEntry_thinned h]
  refine Fewer.append ?_ ?_
  · cases own first rest with
    | nil => exact .refl _
    | cons component others =>
        rw [searchOwn, searchOwn]
        split
        · exact ih others _
        · exact .nothing _
  · rw [searchDeeper, searchDeeper]
    split
    · exact ih _ _
    · exact .nothing _

/-- A search for a literal component finds no more when files are lost, if shorter searches do not. -/
theorem literal (ih : SearchesFewer caller fs' fs directoriesOnly steps) (h : Thinned caller fs' fs)
    (text : List Char) (rest : List Component) (c : Candidate) :
    Fewer (search caller fs' directoriesOnly (steps + 1) (.literal text :: rest) c)
      (search caller fs directoriesOnly (steps + 1) (.literal text :: rest) c) := by
  rw [search_literal, search_literal, Candidate.ofPath_thinned h]
  by_cases hgoes : goesOn caller fs' text c = true
  · rw [if_pos hgoes, if_pos (goesOn_thinned h hgoes)]
    exact ih rest _
  · rw [if_neg hgoes]
    exact .nothing _

/-- A search for a component with wildcards finds no more when files are lost, if shorter searches do
not. -/
theorem listing (ih : SearchesFewer caller fs' fs directoriesOnly steps) (h : Thinned caller fs' fs)
    {first : Component} (hfirst : ∀ text, first ≠ .literal text) (rest : List Component)
    (c : Candidate) :
    Fewer (search caller fs' directoriesOnly (steps + 1) (first :: rest) c)
      (search caller fs directoriesOnly (steps + 1) (first :: rest) c) := by
  rw [search_wild hfirst, search_wild hfirst]
  split
  · exact .nothing _
  · cases hread : fs.readDirectory caller c.path with
    | error e => exact fun found hfound => nomatch hfound
    | ok entries =>
        obtain ⟨fewer, hfewer, hsubset⟩ := h.exists_readDirectory hread
        rw [hfewer]
        refine Fewer.append (.flatten_mapM (List.Subset.refl _) fun name => ?_)
          (.flatten_mapM hsubset (ih.entry h first rest c.path))
        rw [Candidate.ofPath_thinned h]
        exact ih rest _

end SearchesFewer

/-- A search of any length finds no more when files are lost. -/
theorem searchesFewer (h : Thinned caller fs' fs) (directoriesOnly : Bool) (steps : Nat) :
    SearchesFewer caller fs' fs directoriesOnly steps := by
  induction steps with
  | zero =>
      intro pattern c
      rw [search.eq_def, search.eq_def]
      exact .refl _
  | succ steps ih =>
      intro pattern c
      cases pattern with
      | nil =>
          rw [search.eq_def, search.eq_def]
          exact .refl _
      | cons first rest =>
          cases first with
          | literal text => exact ih.literal h text rest c
          | directories | wild => exact ih.listing h (by simp) rest c

/-- A pattern stands for no more paths when files are lost. -/
theorem fewer_paths (h : Thinned caller fs' fs) (pattern : Pattern) :
    Fewer (pattern.paths caller fs') (pattern.paths caller fs) := by
  rw [Pattern.paths, Pattern.paths, Candidate.ofPath_thinned h]
  exact (searchesFewer h _ _ _ _).map_sort

end Search

/-- A pattern stands for some of the paths that it stood for when there were more files. -/
theorem fewer_expand (h : Thinned caller fs' fs) (root : Path) (pattern : String) :
    Fewer (expand caller fs' root pattern) (expand caller fs root pattern) := by
  rw [expand, expand]
  split
  · cases (Pattern.read (rootPattern root) pattern.toList).mapError Error.unreadable with
    | error e => exact .refl _
    | ok compiled => exact (fewer_paths h compiled).mapError
  · intro found hfound
    rw [← Except.ok.inj hfound]
    refine ⟨_, rfl, fun p hp => ?_⟩
    split at hp
    · next hthere =>
        obtain ⟨⟨l, node⟩, hfind⟩ := Lookup.isOk_lstat_iff.1 hthere
        rwa [if_pos (Lookup.isOk_lstat_iff.2 ⟨_, Lookup.find_within h.within hfind⟩)]
    · cases hp

end RpmRelease.Glob
