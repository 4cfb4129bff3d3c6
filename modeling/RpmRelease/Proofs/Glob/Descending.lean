import RpmRelease.Proofs.Glob.Root

/-!
# Patterns that descend

A pattern descends when it leads to nothing but paths inside the tree below its root: it is not
absolute, none of its components is two dots, and no component with wildcards begins with a dot, since
such a one may fit two dots.  What it stands for is searched for behind its root, and the search looks
at nothing else than the tree there.  So in a file system that is sheltered there it finds what it has
found before.
-/

set_option autoImplicit false

namespace RpmRelease.Glob

open Lookup (Inside LeadsDown Reaches Sheltered)

variable {caller : Caller} {fs fs' : FileSystem} {top : Location} {names : List String}

/-! ## Roots that are written by names -/

/-- The path that leads from the root of the file system by names. -/
def fromRoot (names : List String) : Path :=
  (⟨"/"⟩ : Path).along names

/-- The path from the root is a slash and the names with slashes between them. -/
theorem toList_fromRoot (hnames : ∀ name ∈ names, Path.IsName name) :
    (fromRoot names).text.toList = '/' :: (Path.slashed names).toList := by
  by_cases hne : names = []
  · subst hne
    decide
  · have hrelative := Path.isAbsolute_slashed hnames
    rw [fromRoot, ← Path.join_slashed (by decide) hne hnames, Path.join, hrelative]
    simp

/-- A path from the root is not empty. -/
theorem text_fromRoot (hnames : ∀ name ∈ names, Path.IsName name) : (fromRoot names).text ≠ "" := by
  intro hempty
  have htext := toList_fromRoot hnames
  simp [hempty] at htext

/-- One name more is joined to a path from the root. -/
theorem fromRoot_concat (front : List String) (last : String) :
    fromRoot (front ++ [last]) = (fromRoot front).join ⟨last⟩ :=
  Path.along_concat ⟨"/"⟩ front last

/-- The segments of a root that is written by names are these names. -/
theorem rootSegments_fromRoot (hnames : ∀ name ∈ names, Path.IsName name) :
    rootSegments (fromRoot names) = names.map String.toList := by
  rcases List.eq_nil_or_concat' names with rfl | ⟨front, last, rfl⟩
  · rfl
  · have hlast : (fromRoot (front ++ [last])).text.toList.getLast? ≠ some '/' := by
      rw [fromRoot_concat]
      exact (Path.join_last (text_fromRoot fun name hname => hnames name (List.mem_append_left _ hname))
        (hnames last (by simp))).2
    have hkeep : trimSlashes (fromRoot (front ++ [last])).text.toList =
        (fromRoot (front ++ [last])).text.toList := by
      have hne : (fromRoot (front ++ [last])).text.toList ≠ [] := by simp [toList_fromRoot hnames]
      obtain ⟨text, c, htext⟩ := (List.eq_nil_or_concat' _).resolve_left hne
      rw [htext, List.getLast?_concat] at hlast
      rw [htext, trimSlashes_concat, if_neg fun hc => hlast (congrArg some hc)]
    rw [rootSegments, hkeep, toList_fromRoot hnames]
    exact Path.splitWhen_slashed (by simp) hnames

/-- A search for the segments of a path from the root comes to this path. -/
theorem alongRoot_fromRoot (hnames : ∀ name ∈ names, Path.IsName name) :
    alongRoot (fromRoot names) = fromRoot names := by
  have hchars : String.ofList ∘ String.toList = id := funext fun _ => String.ofList_toList
  rw [alongRoot, rootSegments_fromRoot hnames, List.map_map, hchars, List.map_id, fromRoot]

/-- A path from the root is absolute. -/
theorem isAbsolute_fromRoot (hnames : ∀ name ∈ names, Path.IsName name) :
    (fromRoot names).isAbsolute = true := by
  rw [Path.isAbsolute, toList_fromRoot hnames]
  rfl

/-- The steps of a path from the root are those to its names. -/
theorem steps_fromRoot (hnames : ∀ name ∈ names, Path.IsName name) :
    Lookup.steps (fromRoot names).text = Lookup.found (fromRoot names).text.toList := by
  rcases List.eq_nil_or_concat' names with rfl | ⟨front, last, rfl⟩
  · rfl
  · have hlast := hnames last (by simp)
    have hfront := text_fromRoot fun name hname => hnames name (List.mem_append_left _ hname)
    rw [fromRoot_concat, Lookup.steps_join hfront hlast,
      Lookup.found_join hfront (Path.isAbsolute_of_no_slash hlast.no_slash), Lookup.found_name hlast]

/-! ## Patterns that descend -/

/-- A pattern that leads to nothing but paths inside the tree below its root. -/
def Descends (pattern : String) : Prop :=
  LeadsDown pattern ∧ ∀ piece ∈ Text.splitWhen (· == '/') pattern.toList,
    piece.head? = some '.' → ∀ c ∈ piece, isWild c = false

instance (pattern : String) : Decidable (Descends pattern) :=
  inferInstanceAs (Decidable (_ ∧ _))

/-- Each piece of a pattern that leads to nothing but paths inside does not lead up. -/
theorem Descends.piece {pattern : String} (h : Descends pattern) {piece : List Char}
    (hpiece : piece ∈ Text.splitWhen (· == '/') pattern.toList) : PieceDescends piece := by
  refine ⟨?_, h.2 piece hpiece⟩
  rintro rfl
  exact h.1.up_notMem_found (List.mem_filterMap.2 ⟨_, hpiece, rfl⟩)

/-- Each component that is read from such a pattern does not lead up. -/
theorem Descends.component {pattern : String} (h : Descends pattern) {own : List Component}
    (hown : ∀ component ∈ own, ∃ piece ∈ Text.splitWhen (· == '/') pattern.toList,
      Component.read piece = .ok component) : ∀ component ∈ own, component.Descends := by
  intro component hcomponent
  obtain ⟨piece, hpiece, hread⟩ := hown component hcomponent
  refine Component.descends_of_read (fun hslash => ?_) (h.piece hpiece) hread
  simpa using (Text.mem_of_mem_splitWhen hpiece hslash).2

section Expand

variable {pattern : String} (hnames : ∀ name ∈ names, Path.IsName name)
  (hplain : ∀ c ∈ (fromRoot names).text.toList, isSpecial c = false) (hpattern : Descends pattern)

include hnames hplain hpattern

/-- In a file system that is sheltered below a root, a pattern that descends stands for the same paths
as before. -/
theorem expand_eq (wf : fs.WellFormed) (h : Sheltered caller (fromRoot names) top fs fs') :
    expand caller fs' (fromRoot names) pattern = expand caller fs (fromRoot names) pattern := by
  have hself := Lookup.inside_self (text_fromRoot hnames)
  by_cases hwild : hasWildcards pattern = true
  · have habsolute := isAbsolute_fromRoot hnames
    obtain ⟨node, hlead, hkind⟩ := h.leads
    have hfind := Lookup.find_follow (by simp [hkind]) hlead
    have hreaches : Reaches caller fs (fromRoot names) top := ⟨habsolute, node, hfind, hkind⟩
    have hreaches' : Reaches caller fs' (fromRoot names) top :=
      ⟨habsolute, node, Lookup.find_within h.within hfind, hkind⟩
    cases hcheck : check pattern.toList with
    | error e =>
        rw [expand_of_check_error hreaches' hwild hcheck, expand_of_check_error hreaches hwild hcheck]
    | ok _ =>
        cases hown : (ownPieces pattern.toList).mapM Component.read with
        | error e =>
            rw [expand_of_read_error hreaches' hwild hcheck hown,
              expand_of_read_error hreaches hwild hcheck hown]
        | ok own =>
            rw [expand_eq_search hreaches' (.of_plain habsolute hplain) hwild hcheck hown,
              expand_eq_search hreaches (.of_plain habsolute hplain) hwild hcheck hown,
              alongRoot_fromRoot hnames, Candidate.ofPath_eq h hself,
              search_eq wf h (hpattern.component (exists_piece_of_mapM hown)) hself]
  · rw [expand, expand, if_neg hwild, if_neg hwild]
    simp only [h.lstat_eq (hself.join hpattern.1)]

/-- A pattern that descends stands for paths inside the tree below its root. -/
theorem inside_of_mem_expand (wf : fs.WellFormed) (h : Reaches caller fs (fromRoot names) top)
    {found : List Path} (hfound : expand caller fs (fromRoot names) pattern = .ok found) {path : Path}
    (hpath : path ∈ found) : Inside (fromRoot names) path := by
  have hself := Lookup.inside_self (text_fromRoot hnames)
  by_cases hwild : hasWildcards pattern = true
  · cases hcheck : check pattern.toList with
    | error e =>
        rw [expand_of_check_error h hwild hcheck] at hfound
        cases hfound
    | ok _ =>
        cases hown : (ownPieces pattern.toList).mapM Component.read with
        | error e =>
            rw [expand_of_read_error h hwild hcheck hown] at hfound
            cases hfound
        | ok own =>
            rw [expand_eq_search h (.of_plain h.absolute hplain) hwild hcheck hown,
              alongRoot_fromRoot hnames] at hfound
            obtain ⟨unsorted, hsearch, rfl⟩ := Run.of_map_ok (Run.of_mapError_ok hfound)
            exact inside_of_mem_search wf (hpattern.component (exists_piece_of_mapM hown)) hself hsearch
              ((List.mergeSort_perm unsorted _).mem_iff.1 hpath)
  · rw [expand, if_neg hwild] at hfound
    obtain rfl := Except.ok.inj hfound
    split at hpath
    · rw [List.mem_singleton.1 hpath]
      exact hself.join hpattern.1
    · cases hpath

end Expand

end RpmRelease.Glob
