import RpmRelease.Proofs.FileSystem.Respelling
import RpmRelease.Proofs.FileSystem.Twins
import RpmRelease.Proofs.Glob.Escaping

/-!
# The root in front of a pattern

A pattern is read behind the text of its root, in which special characters are escaped.  So what is read
are the segments of the root, each of which fits nothing but itself, and then what the pattern would be
read as alone.  A search goes down along these segments, whether they are looked up or searched for among
the entries of a directory, and comes to where the root leads.
-/

set_option autoImplicit false

namespace RpmRelease.Glob

open Lookup (Reaches found)

/-! ## The text of a root -/

/-- A text without slashes at its end. -/
def trimSlashes (text : List Char) : List Char :=
  (text.reverse.dropWhile (· == '/')).reverse

/-- A slash at the end of a text is left out, and the others in front of it. -/
theorem trimSlashes_concat (text : List Char) (c : Char) :
    trimSlashes (text ++ [c]) = if c = '/' then trimSlashes text else text ++ [c] := by
  rw [trimSlashes, List.reverse_append, List.reverse_singleton, List.singleton_append, List.dropWhile_cons]
  split
  · next hc => rw [if_pos (by simpa using hc), trimSlashes]
  · next hc => rw [if_neg (by simpa using hc), List.reverse_cons, List.reverse_reverse]

/-- Escaping two texts one after the other is escaping them together. -/
theorem escape_append (front rest : List Char) : escape (front ++ rest) = escape front ++ escape rest :=
  List.flatMap_append

/-- Leaving out slashes and escaping may change places. -/
theorem trimSlashes_escape (text : List Char) :
    trimSlashes (escape text) = escape (trimSlashes text) := by
  induction text using List.reverseRecOn with
  | nil => rfl
  | append_singleton text c ih =>
      rw [trimSlashes_concat, escape_append]
      by_cases hc : c = '/'
      · subst hc
        have hslash : escape ['/'] = ['/'] := rfl
        rw [hslash, trimSlashes_concat, if_pos rfl, if_pos rfl, ih]
      · rw [if_neg hc, escape_append]
        cases hspecial : isSpecial c with
        | false =>
            have hplain : escape [c] = [c] := by simp [escape, hspecial]
            rw [hplain, trimSlashes_concat, if_neg hc]
        | true =>
            have hset : escape [c] = ['[', c] ++ [']'] := by simp [escape, hspecial]
            rw [hset, ← List.append_assoc, trimSlashes_concat, if_neg (by decide)]

/-- A text of which empty pieces are left out does not depend on slashes at its end. -/
theorem flatMap_splitWhen_trimSlashes {β : Type} {f : List Char → List β} (hf : f [] = [])
    (text : List Char) : (Text.splitWhen (· == '/') (trimSlashes text)).flatMap f =
      (Text.splitWhen (· == '/') text).flatMap f := by
  induction text using List.reverseRecOn with
  | nil => rfl
  | append_singleton text c ih =>
      rw [trimSlashes_concat]
      split
      · next hc =>
          subst hc
          rw [ih, Text.splitWhen_append_cons text [] (by decide), List.flatMap_append]
          simp [Text.splitWhen, hf]
      · rfl

/-- A text without slashes at its end is a beginning of the text. -/
theorem prefix_trimSlashes (text : List Char) : trimSlashes text <+: text := by
  rw [← List.reverse_suffix, trimSlashes, List.reverse_reverse]
  exact List.dropWhile_suffix _

/-- The segments of a root, without the slashes at its end. -/
def rootSegments (root : Path) : List (List Char) :=
  match trimSlashes root.text.toList with
  | [] => []
  | _ :: rest => Text.splitWhen (· == '/') rest

variable {root : Path}

/-- The text of an absolute root without the slashes at its end. -/
theorem cases_trimSlashes (h : root.isAbsolute = true) :
    (trimSlashes root.text.toList = [] ∧ rootSegments root = []) ∨
      ∃ rest, trimSlashes root.text.toList = '/' :: rest ∧
        rootSegments root = Text.splitWhen (· == '/') rest := by
  rw [rootSegments]
  cases htrim : trimSlashes root.text.toList with
  | nil => exact .inl ⟨rfl, rfl⟩
  | cons c rest =>
      obtain ⟨more, hmore⟩ := prefix_trimSlashes root.text.toList
      rw [htrim] at hmore
      obtain rfl : c = '/' := by simpa [Path.isAbsolute, ← hmore] using h
      exact .inr ⟨rest, rfl, rfl⟩

/-- No slash is in a segment of a root. -/
theorem not_mem_rootSegments {segment : List Char} (h : segment ∈ rootSegments root) : '/' ∉ segment := by
  unfold rootSegments at h
  split at h
  · cases h
  · exact Path.not_mem_of_mem_splitWhen h

/-- The characters of a segment are those of its root. -/
theorem mem_of_mem_rootSegments {segment : List Char} (h : segment ∈ rootSegments root) {c : Char}
    (hc : c ∈ segment) : c ∈ root.text.toList := by
  unfold rootSegments at h
  split at h
  · cases h
  · next first rest htrim =>
      have hmem : c ∈ first :: rest := List.mem_cons_of_mem first (Text.mem_of_mem_splitWhen h hc).1
      rw [← htrim] at hmem
      exact (prefix_trimSlashes root.text.toList).subset hmem

/-- What an absolute root has pieces for, its segments have. -/
theorem flatMap_rootSegments {β : Type} {f : List Char → List β} (hf : f [] = [])
    (h : root.isAbsolute = true) : (Text.splitWhen (· == '/') root.text.toList).flatMap f =
      (rootSegments root).flatMap f := by
  rw [← flatMap_splitWhen_trimSlashes hf]
  rcases cases_trimSlashes h with ⟨htrim, hsegments⟩ | ⟨rest, htrim, hsegments⟩ <;> rw [htrim, hsegments]
  · simp [Text.splitWhen, hf]
  · simp [Text.splitWhen, hf]

/-! ## Reading a pattern behind a root -/

/-- The pattern for a root is its escaped text, with one slash at the end. -/
theorem rootPattern_eq (root : Path) :
    rootPattern root = escape (trimSlashes root.text.toList ++ ['/']) := by
  rw [escape_append, ← trimSlashes_escape]
  rfl

/-- The pieces of a pattern with a root in front. -/
theorem splitWhen_rootPattern (h : root.isAbsolute = true) (pattern : List Char) :
    Text.splitWhen (· == '/') (rootPattern root ++ pattern).tail =
      (rootSegments root).map escape ++ Text.splitWhen (· == '/') pattern := by
  rw [rootPattern_eq]
  rcases cases_trimSlashes h with ⟨htrim, hsegments⟩ | ⟨rest, htrim, hsegments⟩ <;> rw [htrim, hsegments]
  · rfl
  · have hslash : escape ('/' :: rest ++ ['/']) = '/' :: (escape rest ++ ['/']) := by
      rw [escape_append]
      rfl
    rw [hslash, List.cons_append, List.tail_cons, List.append_assoc, List.singleton_append,
      Text.splitWhen_append_cons _ _ (by decide), splitWhen_escape]

/-- Escaped segments are read as components that stand for exactly these. -/
theorem mapM_read_escape (segments : List (List Char)) :
    (segments.map escape).mapM Component.read = .ok (segments.map Component.exactly) := by
  induction segments with
  | nil => rfl
  | cons segment segments ih =>
      rw [List.map_cons, List.mapM_cons, Component.read_escape, ih]
      rfl

/-- The pieces that the components of a pattern are read from. -/
def ownPieces (pattern : List Char) : List (List Char) :=
  if pattern.getLast? == some '/' then (Text.splitWhen (· == '/') pattern).dropLast
  else Text.splitWhen (· == '/') pattern

/-- Each component of a pattern is read from one of its pieces. -/
theorem exists_piece_of_mapM {pattern : List Char} {own : List Component}
    (h : (ownPieces pattern).mapM Component.read = .ok own) : ∀ component ∈ own,
      ∃ piece ∈ Text.splitWhen (· == '/') pattern, Component.read piece = .ok component := by
  intro component hcomponent
  obtain ⟨piece, hpiece, hread⟩ :=
    FileSystem.exists_of_forall₂ (FileSystem.forall₂_of_mapM h).flip hcomponent
  refine ⟨piece, ?_, hread⟩
  rw [ownPieces] at hpiece
  split at hpiece
  · exact (List.dropLast_sublist _).mem hpiece
  · exact hpiece

/-- What is wrong with a pattern behind a root is wrong behind the characters for the root. -/
theorem check_rootPattern (root : Path) (pattern : List Char) :
    check (rootPattern root ++ pattern) = (check pattern).mapError fun e =>
      ⟨e.position + (rootPattern root).length, e.defect⟩ := by
  have hlast : (trimSlashes root.text.toList ++ ['/']).foldl (fun _ c => c == '/') true = true := by
    rw [List.foldl_append]
    rfl
  rw [check, check, Token.mapError_map, ← Token.read_shift _ (.inl rfl), Nat.zero_add, rootPattern_eq,
    Token.read_escape, hlast, Functor.map_map, Nat.zero_add]

/-- A pattern is read behind a root as the segments of the root and what it is read as itself. -/
theorem read_rootPattern (h : root.isAbsolute = true) {pattern : List Char} (hne : pattern ≠ []) :
    Pattern.read (rootPattern root) pattern = (do
      (check pattern).mapError fun e =>
        .whole (rootPattern root).length ⟨e.position + (rootPattern root).length, e.defect⟩
      let own ← ((ownPieces pattern).mapM Component.read).mapError .component
      return ⟨(rootSegments root).map Component.exactly ++ own, pattern.getLast? == some '/'⟩) := by
  have hlast : (rootPattern root ++ pattern).getLast? = pattern.getLast? := by
    rw [List.getLast?_append_of_ne_nil _ hne]
  have hpieces : (if pattern.getLast? == some '/' then
      (Text.splitWhen (· == '/') (rootPattern root ++ pattern).tail).dropLast
      else Text.splitWhen (· == '/') (rootPattern root ++ pattern).tail) =
        (rootSegments root).map escape ++ ownPieces pattern := by
    rw [splitWhen_rootPattern h, ownPieces]
    split
    · exact List.dropLast_append_of_ne_nil (Text.splitWhen_ne_nil _ _)
    · rfl
  rw [Pattern.read]
  simp only [hlast, hpieces, check_rootPattern, List.mapM_append, mapM_read_escape]
  cases check pattern with
  | error e => rfl
  | ok _ => cases (ownPieces pattern).mapM Component.read <;> rfl

/-! ## Searching along a root -/

section Search

variable {caller : Caller} {fs : FileSystem} {top l : Location} {directoriesOnly : Bool} {steps : Nat}

/-- Searches that find nothing find nothing together. -/
theorem exists_mapM_of_nothing {ε α β : Type} {f : α → Except ε (List β)} {items : List α}
    (h : ∀ a ∈ items, f a = .ok []) : ∃ lists, items.mapM f = .ok lists ∧ lists.flatten = [] := by
  induction items with
  | nil => exact ⟨[], rfl, rfl⟩
  | cons a items ih =>
      obtain ⟨lists, hlists, hnothing⟩ := ih fun b hb => h b (List.mem_cons_of_mem a hb)
      refine ⟨[] :: lists, ?_, hnothing⟩
      rw [List.mapM_cons, h a List.mem_cons_self, hlists]
      rfl

/-- Where all items but one give nothing, what they give together is what this one gives. -/
theorem flatten_mapM_eq {ε α β : Type} {f : α → Except ε (List β)} {before later : List α} {a : α}
    (hbefore : ∀ b ∈ before, f b = .ok []) (hlater : ∀ b ∈ later, f b = .ok []) :
    List.flatten <$> (before ++ a :: later).mapM f = f a := by
  obtain ⟨first, hfirst, hnone⟩ := exists_mapM_of_nothing hbefore
  obtain ⟨last, hlast, hnone'⟩ := exists_mapM_of_nothing hlater
  rw [List.mapM_append, List.mapM_cons, hfirst, hlast]
  cases f a with
  | error e => rfl
  | ok found =>
      change Except.ok (first ++ found :: last).flatten = _
      rw [List.flatten_append, hnone, List.flatten_cons, hnone', List.nil_append, List.append_nil]

/-- What is found through an entry by a component that is matched against its name. -/
theorem searchEntry_of_ne {first : Component} {rest : List Component} {p : Path} {entry : String × Node}
    (hfirst : first ≠ .directories) :
    searchEntry caller fs directoriesOnly steps first rest p entry =
      if first.fits entry.1.toList then
        search caller fs directoriesOnly steps rest (.ofEntry caller fs p entry.1 entry.2)
      else .ok [] := by
  have hown : own first rest = first :: rest := if_neg (by simpa using hfirst)
  have hdeeper : searchDeeper caller fs directoriesOnly steps first (first :: rest)
      (.ofEntry caller fs p entry.1 entry.2) = .ok [] := if_neg (by simp [hfirst])
  simp only [searchEntry, hown, searchOwn, hdeeper]
  split
  · cases search caller fs directoriesOnly steps rest (.ofEntry caller fs p entry.1 entry.2) with
    | error e => rfl
    | ok found => exact congrArg Except.ok (List.append_nil found)
  · rfl

/-- A directory that a path is joined to by a name has an entry of this name. -/
theorem exists_entry {p : Path} {name : String} {m : Location} (hname : Path.IsName name)
    (h : Reaches caller fs p l) (hnext : Reaches caller fs (p.join ⟨name⟩) m) :
    ∃ node, (name, node) ∈ fs.children l ∧
      Candidate.ofEntry caller fs p name node = .ofPath caller fs (p.join ⟨name⟩) := by
  obtain ⟨directory, hfind, -⟩ := h.leads
  obtain ⟨other, hother, hkind⟩ := hnext.leads
  obtain ⟨links, hwalk⟩ := Lookup.exists_walk_join hfind hname
  have hend := (Lookup.find_eq_ok_iff.1 hother).2
  rw [hwalk] at hend
  obtain ⟨node, hnode⟩ : ∃ node, fs.get? (l ++ [name]) = some node := by
    rcases Lookup.cases_walk_name hend with ⟨-, _, hplace, -⟩ | ⟨_, _, hnode, -⟩ |
      ⟨_, _, _, hnode, -⟩ | ⟨_, hnode, -⟩
    · cases hplace
    · exact ⟨_, hnode⟩
    · exact ⟨_, hnode⟩
    · exact ⟨_, hnode⟩
  refine ⟨node, FileSystem.mem_children.2 hnode, ?_⟩
  rw [Candidate.ofEntry, Candidate.ofPath, hnext.isDirectory]
  cases hnodeKind : node.kind with
  | link => simp only
  | directory => rfl
  | file =>
      have hsame := Lookup.eq_of_find_join hfind hname hnode (.inr (by simp [hnodeKind])) hother
      obtain ⟨-, rfl⟩ := Prod.mk.inj hsame
      simp [hnodeKind] at hkind

/-- A segment with special characters is a name. -/
theorem isName_of_isSpecial {segment : List Char} (hslash : '/' ∉ segment)
    (hspecial : segment.any isSpecial = true) : Path.IsName (String.ofList segment) := by
  have hplain {text : List Char} (htext : ∀ c ∈ text, isSpecial c = false) : segment ≠ text := by
    rintro rfl
    obtain ⟨c, hmem, hc⟩ := List.any_eq_true.1 hspecial
    simp [htext c hmem] at hc
  refine ⟨?_, by simpa using hslash, ?_, ?_⟩ <;> rw [ne_eq, ← String.toList_inj, String.toList_ofList]
  · exact hplain (by simp)
  · exact hplain (by simp [isSpecial])
  · exact hplain (by simp [isSpecial])

section Segment

variable {p : Path} {segment : List Char} {m : Location} {rest : List Component}

/-- A search for a literal component goes on where it leads. -/
theorem search_literal_reaches (h : Reaches caller fs p l)
    (hnext : Reaches caller fs (p.join ⟨String.ofList segment⟩) m) :
    search caller fs directoriesOnly (steps + 1) (.literal segment :: rest) (.ofPath caller fs p) =
      search caller fs directoriesOnly steps rest
        (.ofPath caller fs (p.join ⟨String.ofList segment⟩)) := by
  have hgoes : goesOn caller fs segment (.ofPath caller fs p) = true := by
    rw [goesOn]
    split
    · exact h.isDirectory
    · exact Bool.or_eq_true_iff.2 (.inl hnext.reaches)
  rw [search_literal, if_pos hgoes]
  rfl

/-- A search for the name of a directory among the entries goes on to this directory. -/
theorem search_special (hsegment : '/' ∉ segment) (hspecial : segment.any isSpecial = true)
    (h : Reaches caller fs p l) (hnext : Reaches caller fs (p.join ⟨String.ofList segment⟩) m)
    (hread : ∀ node, Lookup.find caller fs true p = .ok (l, node) → caller.may .read node = true) :
    search caller fs directoriesOnly (steps + 1) (Component.exactly segment :: rest)
        (.ofPath caller fs p) =
      search caller fs directoriesOnly steps rest
        (.ofPath caller fs (p.join ⟨String.ofList segment⟩)) := by
  have hwild : Component.exactly segment = .wild (segment.map Token.exactly) := if_pos hspecial
  have hfirst : Component.exactly segment ≠ .directories := by simp [hwild]
  have hstays : (Component.exactly segment).Stays := fun _ =>
    ⟨Component.not_fits_exactly hspecial (by simp [isSpecial]),
      Component.not_fits_exactly hspecial (by simp [isSpecial])⟩
  obtain ⟨node, hentry, hchild⟩ := exists_entry (isName_of_isSpecial hsegment hspecial) h hnext
  obtain ⟨before, later, hchildren⟩ := List.append_of_mem hentry
  -- no other entry has this name
  have hnames : ∀ entry ∈ before ++ later, entry.1 ≠ String.ofList segment := by
    have hpairs : (fs.children l).Pairwise fun a b => a.1 ≠ b.1 := FileSystem.pairwise_children l
    rw [hchildren, List.pairwise_middle fun h => h.symm, List.pairwise_cons] at hpairs
    exact fun entry hmem => (hpairs.1 entry hmem).symm
  have hother : ∀ entry ∈ before ++ later, searchEntry caller fs directoriesOnly steps
      (Component.exactly segment) rest p entry = .ok [] := by
    intro entry hmem
    rw [searchEntry_of_ne hfirst, if_neg]
    intro hfits
    exact hnames entry hmem (String.toList_inj.1
      ((Component.fits_exactly.1 hfits).trans String.toList_ofList.symm))
  have hpath : (Candidate.ofPath caller fs p).path = p := rfl
  rw [search_succ (fun text => by simp [hwild]) hstays,
    if_neg (by simpa [Candidate.ofPath] using h.isDirectory), hpath, h.readDirectory hread, hchildren]
  simp only
  rw [flatten_mapM_eq (fun entry hmem => hother entry (List.mem_append_left _ hmem))
    (fun entry hmem => hother entry (List.mem_append_right _ hmem)), searchEntry_of_ne hfirst,
    if_pos (Component.fits_exactly.2 String.toList_ofList), hchild]

/-- A search for a segment of a root goes on where the segment leads. -/
theorem search_exactly_cons (hsegment : '/' ∉ segment) (h : Reaches caller fs p l)
    (hnext : Reaches caller fs (p.join ⟨String.ofList segment⟩) m)
    (hread : segment.any isSpecial = true → ∀ node, Lookup.find caller fs true p = .ok (l, node) →
      caller.may .read node = true) :
    search caller fs directoriesOnly (steps + 1) (Component.exactly segment :: rest)
        (.ofPath caller fs p) =
      search caller fs directoriesOnly steps rest
        (.ofPath caller fs (p.join ⟨String.ofList segment⟩)) := by
  cases hspecial : segment.any isSpecial with
  | false =>
      have hliteral : Component.exactly segment = .literal segment := if_neg (by simp [hspecial])
      rw [hliteral]
      exact search_literal_reaches h hnext
  | true => exact search_special hsegment hspecial h hnext (hread hspecial)

end Segment

/-- A search for the segments of a root goes on where they lead. -/
theorem search_map_exactly {p : Path} {segments : List (List Char)} {rest : List Component}
    (hsegments : ∀ segment ∈ segments, '/' ∉ segment)
    (hreaches : ∀ front, front <+: segments →
      ∃ l, Reaches caller fs (p.along (front.map String.ofList)) l)
    (hread : ∀ front segment, front ++ [segment] <+: segments → segment.any isSpecial = true →
      ∀ l node, Lookup.find caller fs true (p.along (front.map String.ofList)) = .ok (l, node) →
        caller.may .read node = true) :
    search caller fs directoriesOnly (steps + segments.length) (segments.map Component.exactly ++ rest)
        (.ofPath caller fs p) =
      search caller fs directoriesOnly steps rest
        (.ofPath caller fs (p.along (segments.map String.ofList))) := by
  induction segments generalizing p with
  | nil => rfl
  | cons segment segments ih =>
      have hone : [] ++ [segment] <+: segment :: segments :=
        List.cons_prefix_cons.2 ⟨rfl, List.nil_prefix⟩
      obtain ⟨l, hself⟩ : ∃ l, Reaches caller fs p l := hreaches [] List.nil_prefix
      obtain ⟨m, hnext⟩ : ∃ m, Reaches caller fs (p.join ⟨String.ofList segment⟩) m :=
        hreaches [segment] hone
      have hfirst : segment.any isSpecial = true → ∀ node, Lookup.find caller fs true p = .ok (l, node) →
          caller.may .read node = true := fun hspecial => hread [] segment hone hspecial l
      rw [List.map_cons, List.cons_append, List.length_cons, ← Nat.add_assoc,
        search_exactly_cons (hsegments segment List.mem_cons_self) hself hnext hfirst]
      refine ih (fun other h => hsegments other (List.mem_cons_of_mem segment h)) ?_ ?_
      · exact fun front hfront => hreaches (segment :: front) (List.cons_prefix_cons.2 ⟨rfl, hfront⟩)
      · exact fun front other hfront => hread (segment :: front) other
          (List.cons_prefix_cons.2 ⟨rfl, hfront⟩)

end Search

/-! ## The path along the segments of a root -/

/-- The path that a search for the segments of a root comes to. -/
def alongRoot (root : Path) : Path :=
  (⟨"/"⟩ : Path).along ((rootSegments root).map String.ofList)

/-- A text without slashes is no absolute path. -/
theorem isAbsolute_ofList {segment : List Char} (h : '/' ∉ segment) :
    (⟨String.ofList segment⟩ : Path).isAbsolute = false :=
  Path.isAbsolute_of_no_slash (by simpa using h)

/-- Segments without slashes are no absolute paths. -/
theorem isAbsolute_of_mem_map {segments : List (List Char)} (h : ∀ segment ∈ segments, '/' ∉ segment) :
    ∀ t ∈ segments.map String.ofList, (⟨t⟩ : Path).isAbsolute = false := by
  intro t ht
  obtain ⟨segment, hsegment, rfl⟩ := List.mem_map.1 ht
  exact isAbsolute_ofList (h segment hsegment)

/-- Paths along segments make the moves that the segments add. -/
theorem moves_along_segments {segments : List (List Char)}
    (h : ∀ segment ∈ segments, '/' ∉ segment) :
    ((⟨"/"⟩ : Path).along (segments.map String.ofList)).moves = segments.flatMap Path.added := by
  rw [(Path.along_spec (by decide) (isAbsolute_of_mem_map h)).2.2, List.flatMap_map]
  refine List.flatMap_congr fun segment hsegment => ?_
  rw [String.toList_ofList, Path.splitWhen_of_no_slash (h segment hsegment), List.flatMap_singleton]

/-- The path along some segments has the steps that they ask for. -/
theorem found_along_segments {segments : List (List Char)}
    (h : ∀ segment ∈ segments, '/' ∉ segment) :
    found ((⟨"/"⟩ : Path).along (segments.map String.ofList)).text.toList =
      segments.filterMap Lookup.Step.ofSegment := by
  rw [Lookup.found_along (by decide) (isAbsolute_of_mem_map h), List.flatMap_map,
    List.filterMap_eq_flatMap_toList]
  refine List.flatMap_congr fun segment hsegment => ?_
  rw [String.toList_ofList, found, Path.splitWhen_of_no_slash (h segment hsegment)]
  cases hstep : Lookup.Step.ofSegment segment <;> simp [hstep]

/-- The path that a search comes to along a root is not empty. -/
theorem text_alongRoot (root : Path) : (alongRoot root).text ≠ "" :=
  (Path.along_spec (by decide) (isAbsolute_of_mem_map fun _ => not_mem_rootSegments)).1

/-- The path that a search comes to along a root is absolute. -/
theorem isAbsolute_alongRoot (root : Path) : (alongRoot root).isAbsolute = true :=
  (Path.along_spec (by decide) (isAbsolute_of_mem_map fun _ => not_mem_rootSegments)).2.1

/-- The path along the segments of a root has the components of the root. -/
theorem components_alongRoot (h : root.isAbsolute = true) :
    (alongRoot root).components = root.components := by
  have hmoves : root.moves = (rootSegments root).flatMap Path.added := by
    rw [← flatMap_rootSegments rfl h, ← Path.moves_ofList, String.ofList_toList]
  rw [Path.components_eq_root_cons (isAbsolute_alongRoot root), Path.components_eq_root_cons h,
    hmoves, alongRoot, moves_along_segments fun _ => not_mem_rootSegments]

/-- The path that a search comes to along an absolute root has the steps of the root. -/
theorem found_alongRoot (h : root.isAbsolute = true) :
    found (alongRoot root).text.toList = found root.text.toList := by
  have hroot : found root.text.toList = (rootSegments root).filterMap Lookup.Step.ofSegment := by
    rw [List.filterMap_eq_flatMap_toList, ← flatMap_rootSegments rfl h,
      ← List.filterMap_eq_flatMap_toList]
    rfl
  rw [hroot, alongRoot, found_along_segments fun _ => not_mem_rootSegments]

/-- The size of a text is that of its first character and of the rest. -/
theorem size_ofList_cons (c : Char) (text : List Char) :
    (String.ofList (c :: text)).utf8ByteSize = c.utf8Size + (String.ofList text).utf8ByteSize := by
  rw [← List.singleton_append, String.ofList_append, String.utf8ByteSize_append]
  simp

/-- The pieces of a text are as long as the text, with a slash between any two of them. -/
theorem sizes_splitWhen (text : List Char) :
    Path.sizes ((Text.splitWhen (· == '/') text).map String.ofList) +
      (Text.splitWhen (· == '/') text).length = (String.ofList text).utf8ByteSize + 1 := by
  induction text with
  | nil => rfl
  | cons c text ih =>
      rw [Text.splitWhen, size_ofList_cons]
      split
      · next hc =>
          have hslash : c.utf8Size = 1 := by
            obtain rfl : c = '/' := by simpa using hc
            decide
          simp only [Path.sizes, List.map_cons, List.sum_cons, List.length_cons] at ih ⊢
          rw [hslash, String.ofList_nil, String.utf8ByteSize_empty]
          omega
      · cases hcut : Text.splitWhen (· == '/') text with
        | nil => exact absurd hcut (Text.splitWhen_ne_nil _ _)
        | cons piece more =>
            rw [hcut] at ih
            simp only [Path.sizes, List.modifyHead_cons, List.map_cons, List.sum_cons, List.length_cons,
              size_ofList_cons] at ih ⊢
            omega

/-- The path that a search comes to along an absolute root is no longer than the root. -/
theorem size_alongRoot_le (h : root.isAbsolute = true) :
    (alongRoot root).text.utf8ByteSize ≤ root.text.utf8ByteSize := by
  have hprefix : (String.ofList (trimSlashes root.text.toList)).utf8ByteSize ≤
      root.text.utf8ByteSize := by
    obtain ⟨more, hmore⟩ := prefix_trimSlashes root.text.toList
    have htext : root.text = String.ofList (trimSlashes root.text.toList) ++ String.ofList more := by
      rw [← String.ofList_append, hmore, String.ofList_toList]
    conv_rhs => rw [htext, String.utf8ByteSize_append]
    exact Nat.le_add_right _ _
  rw [alongRoot]
  rcases cases_trimSlashes h with ⟨-, hsegments⟩ | ⟨rest, htrim, hsegments⟩ <;> rw [hsegments]
  · have hne : root.text.utf8ByteSize ≠ 0 := fun hzero => by
      rw [String.utf8ByteSize_eq_zero_iff] at hzero
      simp [Path.isAbsolute, hzero] at h
    exact Nat.pos_of_ne_zero hne
  · have hsizes := sizes_splitWhen rest
    have hslash : '/'.utf8Size = 1 := by decide
    rw [htrim, size_ofList_cons, hslash] at hprefix
    cases hcut : Text.splitWhen (· == '/') rest with
    | nil => exact absurd hcut (Text.splitWhen_ne_nil _ _)
    | cons first more =>
        -- the root of the file system ends in a slash already
        have hfirst : ((⟨"/"⟩ : Path).join ⟨String.ofList first⟩).text.utf8ByteSize =
            1 + (String.ofList first).utf8ByteSize := by
          have hrelative : (⟨String.ofList first⟩ : Path).isAbsolute = false :=
            isAbsolute_ofList (Path.not_mem_of_mem_splitWhen (hcut ▸ List.mem_cons_self))
          have hends : ("/".isEmpty || "/".toList.getLast? == some '/') = true := by decide
          rw [Path.join, hrelative, if_neg (by simp), if_pos hends, String.utf8ByteSize_append]
          rfl
        have hmore := Path.size_along_le ((⟨"/"⟩ : Path).join ⟨String.ofList first⟩)
          (more.map String.ofList)
        rw [hcut] at hsizes
        simp only [Path.sizes, List.map_cons, List.sum_cons, List.length_cons, List.length_map]
          at hsizes hmore
        rw [List.map_cons, Path.along, List.foldl_cons, ← Path.along]
        omega

/-- The path along the segments of a root leads where the root does. -/
theorem reaches_alongRoot {caller : Caller} {fs : FileSystem} {top : Location}
    (h : Reaches caller fs root top) : Reaches caller fs (alongRoot root) top := by
  obtain ⟨node, hkind, -, hwalk⟩ := h.walk_found
  have hrelative : ∀ t ∈ (rootSegments root).map String.ofList, (⟨t⟩ : Path).isAbsolute = false :=
    isAbsolute_of_mem_map fun _ => not_mem_rootSegments
  rw [← found_alongRoot h.absolute] at hwalk
  obtain ⟨hnul, -, hlong⟩ := Lookup.checkText_eq_ok_iff.1 h.checkText
  refine Lookup.reaches_of_walk (isAbsolute_alongRoot root) ?_ hkind hwalk
  refine Lookup.checkText_eq_ok_iff.2 ⟨?_, text_alongRoot root, ?_⟩
  swap
  · exact Nat.lt_of_le_of_lt (size_alongRoot_le h.absolute) hlong
  rw [alongRoot, Path.mem_along_iff (by decide) (by decide) hrelative]
  rintro (hslash | ⟨t, ht, hmem⟩)
  · exact absurd hslash (by decide)
  · obtain ⟨segment, hsegment, rfl⟩ := List.mem_map.1 ht
    rw [String.toList_ofList] at hmem
    exact hnul (mem_of_mem_rootSegments hsegment hmem)

section Way

variable {caller : Caller} {fs : FileSystem} {top : Location}

/-- Every directory may be listed in which a name with special characters is looked up. -/
def Readable (caller : Caller) (fs : FileSystem) (root : Path) : Prop :=
  ∀ (above : Path) (name : String) (l : Location) (node : Node),
    above.components ++ [.normal name] <+: root.components → name.toList.any isSpecial = true →
      Lookup.find caller fs true above = .ok (l, node) → caller.may .read node = true

/-- A segment that is added as a name is this name. -/
theorem eq_of_normal_mem_added {segment : List Char} {name : String}
    (h : .normal name ∈ Path.added segment) : segment = name.toList := by
  rw [Path.added] at h
  split at h
  · cases h
  · have hcomponent := List.mem_singleton.1 h
    rw [Path.Segment.component] at hcomponent
    split_ifs at hcomponent
    rw [Path.Component.normal.inj hcomponent, String.toList_ofList]
    rfl

/-- For a root without special characters no directory has to be listed. -/
theorem Readable.of_plain (h : root.isAbsolute = true)
    (hplain : ∀ c ∈ root.text.toList, isSpecial c = false) : Readable caller fs root := by
  intro above name l node hbefore hspecial _
  have hname : .normal name ∈ root.components := hbefore.subset (by simp)
  rw [← components_alongRoot h, Path.components_eq_root_cons (isAbsolute_alongRoot root), alongRoot,
    moves_along_segments fun _ => not_mem_rootSegments, List.mem_cons] at hname
  obtain ⟨segment, hsegment, hname⟩ := List.mem_flatMap.1 (hname.resolve_left (by simp))
  obtain rfl := eq_of_normal_mem_added hname
  obtain ⟨c, hmem, hc⟩ := List.any_eq_true.1 hspecial
  simp [hplain c (mem_of_mem_rootSegments hsegment hmem)] at hc

/-- A path that relative texts may follow without its becoming too long may be followed itself. -/
theorem checkText_of_along {p : Path} {texts : List String} (hp : p.text ≠ "")
    (htexts : ∀ t ∈ texts, (⟨t⟩ : Path).isAbsolute = false)
    (h : Lookup.checkText (p.along texts).text = .ok ()) : Lookup.checkText p.text = .ok () := by
  induction texts generalizing p with
  | nil => exact h
  | cons t texts ih =>
      have ht := htexts t List.mem_cons_self
      exact Lookup.checkText_of_join hp ht (ih (Path.text_join_ne hp ht)
        (fun other hother => htexts other (List.mem_cons_of_mem t hother)) h)

/-- The first segments of a root that leads to a directory lead to a directory. -/
theorem exists_reaches_front {front more : List (List Char)}
    (h : Reaches caller fs root top) (hsegments : rootSegments root = front ++ more) :
    ∃ l, Reaches caller fs ((⟨"/"⟩ : Path).along (front.map String.ofList)) l := by
  obtain ⟨node, hkind, -, hwalk⟩ := (reaches_alongRoot h).walk_found
  have hall : ∀ segment ∈ front ++ more, '/' ∉ segment := fun segment hsegment =>
    not_mem_rootSegments (hsegments ▸ hsegment)
  have hfront : ∀ segment ∈ front, '/' ∉ segment := fun segment hsegment =>
    hall segment (List.mem_append_left more hsegment)
  have hmore : ∀ segment ∈ more, '/' ∉ segment := fun segment hsegment =>
    hall segment (List.mem_append_right front hsegment)
  obtain ⟨htext, habsolute, -⟩ := Path.along_spec (p := ⟨"/"⟩) (by decide) (isAbsolute_of_mem_map hfront)
  rw [alongRoot, hsegments, found_along_segments hall, List.filterMap_append,
    ← found_along_segments hfront] at hwalk
  obtain ⟨-, l, directory, hwalk, hdirectory, -⟩ := Lookup.exists_walk_front hkind hwalk
  refine ⟨l, Lookup.reaches_of_walk habsolute ?_ hdirectory hwalk⟩
  have hchecked := (reaches_alongRoot h).checkText
  rw [alongRoot, hsegments, List.map_append, Path.along, List.foldl_append] at hchecked
  exact checkText_of_along htext (isAbsolute_of_mem_map hmore) hchecked

/-- The paths that are found behind a root are found from where its segments lead. -/
theorem paths_behind_root (h : Reaches caller fs root top) (hread : Readable caller fs root)
    (own : List Component) (directoriesOnly : Bool) :
    Pattern.paths caller fs ⟨(rootSegments root).map Component.exactly ++ own, directoriesOnly⟩ =
      (search caller fs directoriesOnly (own.length + Lookup.maxPath) own
        (.ofPath caller fs (alongRoot root))).map Path.sort := by
  have hsteps : ((rootSegments root).map Component.exactly ++ own).length + Lookup.maxPath =
      own.length + Lookup.maxPath + (rootSegments root).length := by
    rw [List.length_append, List.length_map]
    omega
  rw [Pattern.paths]
  simp only [hsteps]
  rw [search_map_exactly (fun _ => not_mem_rootSegments)]
  · rfl
  · rintro front ⟨more, hmore⟩
    exact exists_reaches_front h hmore.symm
  · rintro front segment ⟨more, hmore⟩ hspecial l node hfind
    have hall : ∀ other ∈ front ++ [segment], '/' ∉ other := fun other hother =>
      not_mem_rootSegments (hmore ▸ List.mem_append_left more hother)
    have hfront : ∀ other ∈ front, '/' ∉ other := fun other hother =>
      hall other (List.mem_append_left _ hother)
    have hname := isName_of_isSpecial (hall segment (by simp)) hspecial
    have hadded : Path.added segment = [.normal (String.ofList segment)] := by
      have hchars := (show Path.Component.Inner (.normal _) from .inr ⟨_, rfl, hname⟩).added_chars.2.2.2
      rwa [Path.Component.chars, Path.Component.path, String.toList_ofList] at hchars
    have habsolute := (Path.along_spec (p := ⟨"/"⟩) (by decide) (isAbsolute_of_mem_map hfront)).2.1
    refine hread _ (String.ofList segment) l node ?_ (by simpa using hspecial) hfind
    rw [← components_alongRoot h.absolute, Path.components_eq_root_cons habsolute,
      Path.components_eq_root_cons (reaches_alongRoot h).absolute, alongRoot, ← hmore,
      moves_along_segments hfront, moves_along_segments fun other hother =>
        not_mem_rootSegments (hmore ▸ hother), List.flatMap_append, List.flatMap_append,
      List.flatMap_singleton, hadded, ← List.cons_append]
    exact List.prefix_append _ _

/-- A pattern with wildcards is not empty. -/
theorem toList_ne_nil {pattern : String} (h : hasWildcards pattern = true) : pattern.toList ≠ [] := by
  intro hnil
  simp [hasWildcards, hnil] at h

/-- A pattern that is not well formed is reported with its place behind the root. -/
theorem expand_of_check_error {pattern : String} {e : PatternError} (h : Reaches caller fs root top)
    (hwild : hasWildcards pattern = true) (hcheck : check pattern.toList = .error e) :
    expand caller fs root pattern = .error (.unreadable (.whole (rootPattern root).length
      ⟨e.position + (rootPattern root).length, e.defect⟩)) := by
  rw [expand, if_pos hwild, read_rootPattern h.absolute (toList_ne_nil hwild), hcheck]
  rfl

/-- A pattern with a component that cannot be read is reported with that component. -/
theorem expand_of_read_error {pattern : String} {e : PatternError} (h : Reaches caller fs root top)
    (hwild : hasWildcards pattern = true) (hcheck : check pattern.toList = .ok ())
    (hown : (ownPieces pattern.toList).mapM Component.read = .error e) :
    expand caller fs root pattern = .error (.unreadable (.component e)) := by
  rw [expand, if_pos hwild, read_rootPattern h.absolute (toList_ne_nil hwild), hcheck, hown]
  rfl

/-- A pattern with wildcards that is read well stands for what a search finds behind its root. -/
theorem expand_eq_search {pattern : String} {own : List Component} (h : Reaches caller fs root top)
    (hread : Readable caller fs root) (hwild : hasWildcards pattern = true)
    (hcheck : check pattern.toList = .ok ())
    (hown : (ownPieces pattern.toList).mapM Component.read = .ok own) :
    expand caller fs root pattern = ((search caller fs (pattern.toList.getLast? == some '/')
      (own.length + Lookup.maxPath) own (.ofPath caller fs (alongRoot root))).map Path.sort).mapError
        .unlisted := by
  have hcompiled : Pattern.read (rootPattern root) pattern.toList =
      .ok ⟨(rootSegments root).map Component.exactly ++ own, pattern.toList.getLast? == some '/'⟩ := by
    rw [read_rootPattern h.absolute (toList_ne_nil hwild), hcheck, hown]
    rfl
  rw [expand, if_pos hwild, hcompiled, ← paths_behind_root h hread]
  rfl

end Way

end RpmRelease.Glob
