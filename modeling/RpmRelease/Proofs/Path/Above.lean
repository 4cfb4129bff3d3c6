import Mathlib.Data.List.Basic
import RpmRelease.Proofs.Path

/-!
# Paths above and below others

Cutting a path at one of its components gives two paths: the components of the first one are those in
front of the cut, and the components of the second one are those behind it.  So the paths above a
path have the beginnings of its components, and the part of a path below another one, joined to a
third one, puts the remaining components behind those of the third.
-/

set_option autoImplicit false

namespace RpmRelease

namespace Path

/-! ## The segments of a path -/

/-- Pieces with slashes between them are cut into these pieces. -/
theorem splitWhen_intercalate {pieces : List (List Char)} (hne : pieces ≠ [])
    (hslash : ∀ piece ∈ pieces, '/' ∉ piece) :
    Text.splitWhen (· == '/') (List.intercalate ['/'] pieces) = pieces := by
  induction pieces with
  | nil => exact absurd rfl hne
  | cons piece pieces ih =>
      have hpiece := splitWhen_of_no_slash (hslash piece List.mem_cons_self)
      cases pieces with
      | nil => simpa using hpiece
      | cons next more =>
          have hrest := ih (by simp) fun other h => hslash other (List.mem_cons_of_mem piece h)
          rw [List.intercalate_cons_cons, List.append_assoc, List.singleton_append,
            Text.splitWhen_append_cons _ _ (by decide), hpiece, hrest]
          rfl

/-- Segments as they stand in a path: those of an absolute path are inner ones, and so are those of
a relative path behind its first one, which is not empty. -/
structure Segment.Fitting (absolute : Bool) (segments : List Segment) : Prop where
  no_slash : ∀ s ∈ segments, '/' ∉ s.text
  inner : absolute = true → ∀ s ∈ segments, s = Segment.inner s.text
  first : absolute = false → ∀ s more, segments = s :: more →
    s.text ≠ [] ∧ s.counts = true ∧ ∀ t ∈ more, t = Segment.inner t.text

/-- The segments of a path that is not empty fit. -/
theorem fitting_segments {p : Path} (hp : p.text ≠ "") :
    Segment.Fitting p.isAbsolute p.segments := by
  rcases cases_segments p with ⟨cs, -, habsolute, hsegments⟩ |
    ⟨first, more, hcut, hfirst, hrelative, hsegments⟩
  · rw [habsolute, hsegments]
    refine ⟨?_, ?_, by simp⟩
    · intro s hs
      obtain ⟨piece, hpiece, rfl⟩ := List.mem_map.1 hs
      exact not_mem_of_mem_splitWhen hpiece
    · intro _ s hs
      obtain ⟨piece, _, rfl⟩ := List.mem_map.1 hs
      rfl
  · rw [hrelative, hsegments]
    refine ⟨?_, by simp, ?_⟩
    · intro s hs
      rcases List.mem_cons.1 hs with rfl | hs
      · exact not_mem_of_mem_splitWhen (hcut ▸ List.mem_cons_self)
      · obtain ⟨piece, hpiece, rfl⟩ := List.mem_map.1 hs
        exact not_mem_of_mem_splitWhen (hcut ▸ List.mem_cons_of_mem first hpiece)
    · intro _ s rest heq
      obtain ⟨rfl, rfl⟩ := List.cons.inj heq
      refine ⟨hfirst hp, by simpa using hfirst hp, ?_⟩
      intro t ht
      obtain ⟨piece, _, rfl⟩ := List.mem_map.1 ht
      rfl

/-- A beginning of fitting segments fits. -/
theorem Segment.Fitting.front {absolute : Bool} {front whole : List Segment}
    (h : Segment.Fitting absolute whole) (hfront : front <+: whole) :
    Segment.Fitting absolute front where
  no_slash := fun s hs => h.no_slash s (hfront.mem hs)
  inner := fun habsolute s hs => h.inner habsolute s (hfront.mem hs)
  first := by
    rintro hrelative s more rfl
    obtain ⟨rest, rfl⟩ := hfront
    obtain ⟨hne, hcounts, hmore⟩ := h.first hrelative s (more ++ rest) rfl
    exact ⟨hne, hcounts, fun t ht => hmore t (List.mem_append_left rest ht)⟩

/-- The components that segments write. -/
def written (segments : List Segment) : List Component :=
  (segments.filter (·.counts)).map Segment.component

/-- Segments write their components one after the other. -/
theorem written_append (front rest : List Segment) :
    written (front ++ rest) = written front ++ written rest := by
  rw [written, List.filter_append, List.map_append]
  rfl

/-- The components of a path are the root, if it is absolute, and what its segments write. -/
theorem components_eq (p : Path) :
    p.components = (if p.isAbsolute then [.root] else []) ++ written p.segments := rfl

/-- Inner segments are made from their texts again. -/
theorem map_inner {segments : List Segment} (h : ∀ s ∈ segments, s = Segment.inner s.text) :
    (segments.map Segment.text).map Segment.inner = segments := by
  rw [List.map_map]
  calc segments.map (Segment.inner ∘ Segment.text)
      = segments.map id := List.map_congr_left fun s hs => (h s hs).symm
    _ = segments := List.map_id segments

/-- Fitting segments with slashes between them are read as these segments. -/
theorem splitWhen_texts {absolute : Bool} {segments : List Segment}
    (h : Segment.Fitting absolute segments) (hne : segments ≠ []) :
    Text.splitWhen (· == '/') (List.intercalate ['/'] (segments.map Segment.text)) =
      segments.map Segment.text := by
  refine splitWhen_intercalate (by simpa using hne) fun piece hpiece => ?_
  obtain ⟨s, hs, rfl⟩ := List.mem_map.1 hpiece
  exact h.no_slash s hs

/-- A path made of segments that fit has the components that they write. -/
theorem components_ofSegments {absolute : Bool} {segments : List Segment}
    (h : Segment.Fitting absolute segments) :
    (ofSegments absolute segments).components =
        (if absolute then [.root] else []) ++ written segments ∧
      (ofSegments absolute segments).isAbsolute = absolute := by
  cases absolute with
  | true =>
      have habsolute : (ofSegments true segments).isAbsolute = true := by
        simp [ofSegments, isAbsolute]
      refine ⟨?_, habsolute⟩
      rw [components_eq, habsolute, ofSegments]
      simp only [if_true]
      rw [segments_absolute]
      cases hsegments : segments with
      | nil => rfl
      | cons s more =>
          rw [← hsegments, splitWhen_texts h (by simp [hsegments]), map_inner (h.inner rfl)]
  | false =>
      cases hsegments : segments with
      | nil => exact ⟨rfl, rfl⟩
      | cons s more =>
          obtain ⟨hne, hcounts, hmore⟩ := h.first rfl s more hsegments
          have hcut := splitWhen_texts h (by simp [hsegments])
          rw [hsegments, List.map_cons] at hcut
          -- the first text is not empty and has no slash, so that the path is relative
          have hhead : (List.intercalate ['/'] (s.text :: more.map Segment.text)).head? ≠
              some '/' := by
            have hslash := h.no_slash s (hsegments ▸ List.mem_cons_self)
            cases htext : s.text with
            | nil => exact absurd htext hne
            | cons c cs =>
                have hc : c ≠ '/' := by
                  rintro rfl
                  exact hslash (htext ▸ List.mem_cons_self)
                cases more <;> simp [hc]
          have hrelative : (ofSegments false (s :: more)).isAbsolute = false := by
            simpa [ofSegments, isAbsolute] using hhead
          refine ⟨?_, hrelative⟩
          have hfirst : (⟨s.text, !s.text.isEmpty⟩ : Segment) = s := by
            cases s with
            | mk text counts => simp_all
          rw [components_eq, hrelative, ofSegments, List.map_cons]
          simp only [Bool.false_eq_true, if_false]
          rw [segments_relative hhead hcut, map_inner hmore, hfirst]

/-! ## The paths above a path -/

/-- Trimming takes away segments at the end that write nothing. -/
theorem trimSegments_spec (segments : List Segment) :
    trimSegments segments <+: segments ∧ written (trimSegments segments) = written segments := by
  have hcut : segments.reverse.takeWhile (!·.counts) ++ segments.reverse.dropWhile (!·.counts) =
      segments.reverse := List.takeWhile_append_dropWhile
  have hwhole : segments = trimSegments segments ++
      (segments.reverse.takeWhile (!·.counts)).reverse := by
    rw [trimSegments, ← List.reverse_append, hcut, List.reverse_reverse]
  have hnothing : written (segments.reverse.takeWhile (!·.counts)).reverse = [] := by
    rw [written, List.filter_eq_nil_iff.2, List.map_nil]
    intro s hs
    simpa using List.all_eq_true.1 List.all_takeWhile s (List.mem_reverse.1 hs)
  refine ⟨⟨_, hwhole.symm⟩, ?_⟩
  conv_rhs => rw [hwhole]
  rw [written_append, hnothing, List.append_nil]

/-- The last segment counts when those that do not are left out at the end. -/
theorem counts_of_trimSegments {segments front : List Segment} {s : Segment}
    (h : trimSegments segments = front ++ [s]) : s.counts = true := by
  have hdrop : segments.reverse.dropWhile (!·.counts) = s :: front.reverse := by
    rw [← List.reverse_inj, ← trimSegments, h]
    simp
  have hhead := List.head?_dropWhile_not (fun s : Segment => !s.counts) segments.reverse
  rw [hdrop] at hhead
  simpa using hhead

/-- The path above a path is made of the segments in front of the last one that counts. -/
theorem of_parent? {p q : Path} (h : p.parent? = some q) : p.text ≠ "" ∧
    ∃ front s, trimSegments p.segments = front ++ [s] ∧
      q = ofSegments p.isAbsolute (trimSegments front) := by
  have hp : p.text ≠ "" := by
    obtain ⟨text⟩ := p
    rintro rfl
    have hnone : parent? ⟨""⟩ = none := by decide
    simp [hnone] at h
  rw [parent?] at h
  split at h
  · simp at h
  · next s front hreverse =>
      refine ⟨hp, front.reverse, s, ?_, (Option.some.inj h).symm⟩
      rw [← List.reverse_inj, hreverse]
      simp

/-- The components of the path above a path are those of the path without the last one. -/
theorem components_parent? {p q : Path} (h : p.parent? = some q) :
    q.components = p.components.dropLast ∧ q.isAbsolute = p.isAbsolute := by
  obtain ⟨hp, front, s, htrim, rfl⟩ := of_parent? h
  obtain ⟨hstarts, hwritten⟩ := trimSegments_spec p.segments
  obtain ⟨hstarts', hwritten'⟩ := trimSegments_spec front
  have hfits : Segment.Fitting p.isAbsolute (trimSegments front) := by
    refine (fitting_segments hp).front (hstarts'.trans ?_)
    exact (List.prefix_append _ [s]).trans (htrim ▸ hstarts)
  obtain ⟨hcomponents, habsolute⟩ := components_ofSegments hfits
  refine ⟨?_, habsolute⟩
  have hlast : written [s] = [s.component] := by
    rw [written, List.filter_cons_of_pos (counts_of_trimSegments htrim)]
    rfl
  rw [hcomponents, hwritten', components_eq, ← hwritten, htrim, written_append, hlast,
    ← List.append_assoc, List.dropLast_concat]

/-- A path and the paths above it have the beginnings of its components. -/
theorem components_of_mem_ancestors {p q : Path} (h : q ∈ p.ancestors) :
    q.components <+: p.components ∧ q.isAbsolute = p.isAbsolute := by
  have hupTo (n : Nat) : ∀ p : Path, q ∈ ancestorsUpTo n p →
      q.components <+: p.components ∧ q.isAbsolute = p.isAbsolute := by
    induction n with
    | zero =>
        intro p hq
        obtain rfl := List.mem_singleton.1 hq
        exact ⟨List.prefix_rfl, rfl⟩
    | succ n ih =>
        intro p hq
        rw [ancestorsUpTo] at hq
        split at hq
        · obtain rfl := List.mem_singleton.1 hq
          exact ⟨List.prefix_rfl, rfl⟩
        · next above habove =>
            rcases List.mem_cons.1 hq with rfl | hq
            · exact ⟨List.prefix_rfl, rfl⟩
            · obtain ⟨hcomponents, habsolute⟩ := components_parent? habove
              obtain ⟨hstarts, hsame⟩ := ih above hq
              exact ⟨hstarts.trans (hcomponents ▸ List.dropLast_prefix _), hsame.trans habsolute⟩
  exact hupTo _ p h

/-! ## The part of a path below another one -/

/-- A path that is not empty has components. -/
theorem components_ne_nil {p : Path} (hp : p.text ≠ "") : p.components ≠ [] := by
  rw [components_eq]
  cases habsolute : p.isAbsolute with
  | true => simp
  | false =>
      have hfits := fitting_segments hp
      cases hsegments : p.segments with
      | nil =>
          rw [segments, habsolute] at hsegments
          cases hcut : Text.splitWhen (· == '/') p.text.toList with
          | nil => exact absurd hcut (Text.splitWhen_ne_nil _ _)
          | cons first more => simp [hcut] at hsegments
      | cons s more =>
          obtain ⟨_, hcounts, _⟩ := hfits.first habsolute s more hsegments
          rw [written, List.filter_cons_of_pos hcounts]
          simp

/-- A path is absolute when its components begin with the root. -/
theorem isAbsolute_iff (p : Path) : p.isAbsolute = true ↔ p.components.head? = some .root := by
  rw [components_eq]
  cases p.isAbsolute with
  | true => simp
  | false =>
      have hroot (s : Segment) : s.component ≠ .root := by
        rw [Segment.component]
        split
        · simp
        · split <;> simp
      simp only [Bool.false_eq_true, if_false, List.nil_append, false_iff]
      intro hhead
      obtain ⟨s, _, hs⟩ := List.mem_map.1 (List.mem_of_head? hhead)
      exact hroot s hs

/-- Dropping segments leaves an end of them that writes what is left. -/
theorem dropSegments_spec (n : Nat) (segments : List Segment) :
    dropSegments n segments <:+ segments ∧
      written (dropSegments n segments) = (written segments).drop n ∧
      ∀ s more, dropSegments n segments = s :: more → s.counts = true := by
  -- on the segments; only those that count use up the number to drop
  induction segments generalizing n with
  | nil => cases n <;> exact ⟨List.suffix_rfl, by simp [dropSegments, written], by simp [dropSegments]⟩
  | cons s rest ih =>
      cases hs : s.counts with
      | true =>
          have hwritten : written (s :: rest) = s.component :: written rest := by
            rw [written, List.filter_cons_of_pos hs]
            rfl
          cases n with
          | zero =>
              rw [dropSegments, if_pos hs]
              refine ⟨List.suffix_rfl, rfl, fun t more heq => ?_⟩
              obtain ⟨rfl, _⟩ := List.cons.inj heq
              exact hs
          | succ n =>
              obtain ⟨hsuffix, hleft, hfirst⟩ := ih n
              rw [dropSegments, if_pos hs, hwritten, List.drop_succ_cons]
              exact ⟨hsuffix.trans (List.suffix_cons s rest), hleft, hfirst⟩
      | false =>
          have hwritten : written (s :: rest) = written rest := by
            rw [written, List.filter_cons_of_neg (by simp [hs])]
            rfl
          obtain ⟨hsuffix, hleft, hfirst⟩ := ih n
          have hdrop : dropSegments n (s :: rest) = dropSegments n rest := by
            cases n <;> rw [dropSegments, if_neg (by simp [hs])]
          rw [hdrop, hwritten]
          exact ⟨hsuffix.trans (List.suffix_cons s rest), hleft, hfirst⟩

/-- An end of segments that begins with one that writes something fits behind any path. -/
theorem Segment.Fitting.rest {absolute : Bool} {rest whole : List Segment}
    (h : Segment.Fitting absolute whole) (hrest : rest <:+ whole)
    (hcounts : ∀ s more, rest = s :: more → s.counts = true) : Segment.Fitting false rest where
  no_slash := fun s hs => h.no_slash s (hrest.mem hs)
  inner := by simp
  first := by
    rintro _ s more rfl
    have hs := hcounts s more rfl
    obtain ⟨front, hfront⟩ := hrest
    have hmore : ∀ t ∈ more, t = Segment.inner t.text := by
      intro t ht
      cases absolute with
      | true => exact h.inner rfl t (hfront ▸ by simp [ht])
      | false =>
          cases front with
          | nil => exact (h.first rfl s more hfront.symm).2.2 t ht
          | cons f front =>
              refine (h.first rfl f (front ++ s :: more) hfront.symm).2.2 t ?_
              simp [ht]
    refine ⟨?_, hs, hmore⟩
    have hself : s = Segment.inner s.text ∨ s.text ≠ [] := by
      cases absolute with
      | true => exact Or.inl (h.inner rfl s (hfront ▸ by simp))
      | false =>
          cases front with
          | nil => exact Or.inr (h.first rfl s more hfront.symm).1
          | cons f front =>
              refine Or.inl ((h.first rfl f (front ++ s :: more) hfront.symm).2.2 s ?_)
              simp
    rcases hself with hself | hne
    · intro hnil
      rw [hself, hnil] at hs
      exact absurd hs (by decide)
    · exact hne

/-- The components of the part of a path below another one are those behind the components of that
one. -/
theorem components_below? {p base rest : Path} (hbase : base.text ≠ "")
    (h : p.below? base = some rest) :
    p.components = base.components ++ rest.components ∧ rest.isAbsolute = false := by
  have hne := components_ne_nil hbase
  rw [below?] at h
  split at h
  · next hstarts =>
      obtain ⟨behind, hbehind⟩ := List.isPrefixOf_iff_prefix.1 hstarts
      have hp : p.text ≠ "" := by
        intro hempty
        obtain ⟨text⟩ := p
        obtain rfl : text = "" := hempty
        have hnil : components ⟨""⟩ = [] := by decide
        rw [hnil] at hbehind
        exact hne (List.append_eq_nil_iff.1 hbehind).1
      simp only [Option.some.injEq] at h
      generalize hn : (if p.isAbsolute then base.components.length - 1 else
        base.components.length) = n at h
      obtain ⟨hsuffix, hleft, hfirst⟩ := dropSegments_spec n p.segments
      obtain ⟨hstarts, hwritten⟩ := trimSegments_spec (dropSegments n p.segments)
      have hfits : Segment.Fitting false (trimSegments (dropSegments n p.segments)) :=
        ((fitting_segments hp).rest hsuffix hfirst).front hstarts
      obtain ⟨hcomponents, hrelative⟩ := components_ofSegments hfits
      rw [← h]
      refine ⟨?_, hrelative⟩
      rw [hcomponents, hwritten, hleft]
      simp only [Bool.false_eq_true, if_false, List.nil_append]
      have hdrop : p.components.drop base.components.length = (written p.segments).drop n := by
        rw [components_eq p, ← hn]
        cases hlength : base.components.length with
        | zero => exact absurd (List.length_eq_zero_iff.1 hlength) hne
        | succ m => cases p.isAbsolute <;> simp
      rw [← hdrop, ← hbehind, List.drop_left]
  · simp at h

/-! ## Joining paths -/

/-- The segments of a relative path write the same behind another path, unless the first one is a
single dot. -/
theorem written_inner {cs : List Char} (hrelative : cs.head? ≠ some '/')
    (hdot : (components ⟨String.ofList cs⟩).head? ≠ some .current) :
    written ((Text.splitWhen (· == '/') cs).map Segment.inner) =
      components ⟨String.ofList cs⟩ := by
  have habsolute : isAbsolute ⟨String.ofList cs⟩ = false := by
    simpa [isAbsolute] using hrelative
  cases hcut : Text.splitWhen (· == '/') cs with
  | nil => exact absurd hcut (Text.splitWhen_ne_nil _ _)
  | cons first more =>
      have hcomponents : components ⟨String.ofList cs⟩ =
          written (⟨first, !first.isEmpty⟩ :: more.map Segment.inner) := by
        rw [components_eq, habsolute, segments_relative hrelative hcut]
        rfl
      have hfirst : (⟨first, !first.isEmpty⟩ : Segment) = Segment.inner first := by
        by_cases hcurrent : first = ['.']
        · rw [hcomponents, hcurrent] at hdot
          exact absurd rfl hdot
        · simp [Segment.inner, hcurrent]
      rw [hcomponents, hfirst, List.map_cons]

/-- A relative path joined to another one puts its components behind those of that one, unless it
begins with a single dot. -/
theorem components_join {p q : Path} (hp : p.text ≠ "") (hq : q.isAbsolute = false)
    (hdot : q.components.head? ≠ some .current) :
    (p.join q).components = p.components ++ q.components ∧
      (p.join q).isAbsolute = p.isAbsolute := by
  obtain ⟨p⟩ := p
  obtain ⟨q⟩ := q
  obtain ⟨cs, rfl⟩ : ∃ cs, p = String.ofList cs := ⟨p.toList, String.ofList_toList.symm⟩
  obtain ⟨ds, rfl⟩ : ∃ ds, q = String.ofList ds := ⟨q.toList, String.ofList_toList.symm⟩
  have hcs : cs ≠ [] := by simpa using hp
  have hrelative : ds.head? ≠ some '/' := by simpa [isAbsolute] using hq
  have hbehind := written_inner hrelative hdot
  -- the two texts stand around a slash, whether the first one brings it along or not
  obtain ⟨front, hjoin, hfront, habsolute⟩ : ∃ front,
      join ⟨String.ofList cs⟩ ⟨String.ofList ds⟩ = ⟨String.ofList (front ++ '/' :: ds)⟩ ∧
      components ⟨String.ofList (front ++ ['/'])⟩ = components ⟨String.ofList cs⟩ ∧
      isAbsolute ⟨String.ofList (front ++ ['/'])⟩ = isAbsolute ⟨String.ofList cs⟩ := by
    rw [join, hq]
    by_cases hlast : cs.getLast? = some '/'
    · obtain ⟨front, rfl⟩ := List.getLast?_eq_some_iff.1 hlast
      refine ⟨front, ?_, rfl, rfl⟩
      simp [← String.ofList_append]
    · refine ⟨cs, ?_, components_append_slash hcs, isAbsolute_append _ hcs⟩
      have htext : String.ofList cs ++ "/" ++ String.ofList ds = String.ofList (cs ++ '/' :: ds) := by
        simp [← String.toList_inj]
      simp [hlast, hcs, htext]
  rw [hjoin, ← hfront, ← habsolute]
  cases front with
  | nil =>
      have hroot : isAbsolute ⟨String.ofList ('/' :: ds)⟩ = true := by simp [isAbsolute]
      refine ⟨?_, hroot⟩
      rw [List.nil_append, components_eq, hroot, segments_absolute, hbehind]
      rfl
  | cons c front =>
      have hsame (behind : List Char) :
          isAbsolute ⟨String.ofList (c :: front ++ '/' :: behind)⟩ =
            isAbsolute ⟨String.ofList (c :: front)⟩ := isAbsolute_append _ (by simp)
      refine ⟨?_, (hsame ds).trans (hsame []).symm⟩
      rw [components_append_slash (by simp), components_eq, hsame, segments_append ds (by simp),
        written_append, hbehind, ← List.append_assoc, ← components_eq]

/-- A text that begins with a name is a relative path. -/
theorem isAbsolute_name {name : String} (hname : IsName name) (rest : String) :
    (⟨name ++ rest⟩ : Path).isAbsolute = false := by
  cases htext : name.toList with
  | nil => exact absurd (String.toList_eq_nil_iff.1 htext) hname.ne_empty
  | cons c cs =>
      have hslash : c ≠ '/' := by
        rintro rfl
        exact hname.no_slash (htext ▸ List.mem_cons_self)
      simpa [isAbsolute, htext] using hslash

/-- A path joined with a name has this component in addition. -/
theorem components_join_name {p : Path} {name : String} (hp : p.text ≠ "") (hname : IsName name) :
    (p.join ⟨name⟩).components = p.components ++ [.normal name] := by
  have hrelative := isAbsolute_of_no_slash hname.no_slash
  have hadded := (show (Component.normal name).Inner from Or.inr ⟨name, rfl, hname⟩).added_chars
  have hcomponents : (⟨name⟩ : Path).components = [.normal name] := by
    have hsegment := components_segment hadded.1 hadded.2.1
    rw [hadded.2.2.1] at hsegment
    simpa [Component.chars, Component.path] using hsegment
  rw [(components_join hp hrelative (by simp [hcomponents])).1, hcomponents]

/-- A path along some names has these components in addition, and is not empty. -/
theorem components_along {p : Path} {names : List String} (hp : p.text ≠ "")
    (hnames : ∀ name ∈ names, IsName name) :
    (p.along names).components = p.components ++ names.map .normal ∧ (p.along names).text ≠ "" := by
  induction names generalizing p with
  | nil => exact ⟨(List.append_nil _).symm, hp⟩
  | cons name names ih =>
      have hname := hnames name List.mem_cons_self
      obtain ⟨hcomponents, htext⟩ :=
        ih (join_last hp hname).1 fun other h => hnames other (List.mem_cons_of_mem name h)
      refine ⟨?_, htext⟩
      rw [along, List.foldl_cons, ← along, hcomponents, components_join_name hp hname,
        List.append_assoc, List.map_cons, List.singleton_append]

/-- Names with slashes between them are a relative path. -/
theorem isAbsolute_slashed {names : List String} (hnames : ∀ name ∈ names, IsName name) :
    (⟨slashed names⟩ : Path).isAbsolute = false := by
  cases names with
  | nil => decide
  | cons name names =>
      have hname := hnames name List.mem_cons_self
      by_cases hnil : names = []
      · rw [hnil, slashed_singleton]
        exact isAbsolute_of_no_slash hname.no_slash
      · rw [slashed_cons name hnil, String.append_assoc]
        exact isAbsolute_name hname _

/-- Names with slashes between them are joined to a path like one name after the other. -/
theorem join_slashed {p : Path} {names : List String} (hp : p.text ≠ "") (hne : names ≠ [])
    (hnames : ∀ name ∈ names, IsName name) : p.join ⟨slashed names⟩ = p.along names := by
  induction names generalizing p with
  | nil => exact absurd rfl hne
  | cons name names ih =>
      have hname := hnames name List.mem_cons_self
      by_cases hnil : names = []
      · rw [hnil, slashed_singleton]
        rfl
      · have hrest := ih (join_last hp hname).1 hnil fun other h =>
          hnames other (List.mem_cons_of_mem name h)
        rw [along, List.foldl_cons, ← along, ← hrest, slashed_cons name hnil]
        -- a slash follows the name, on whichever side it is put
        have hempty (q : Path) (hq : q.text ≠ "") : q.text.isEmpty = false := by simpa using hq
        have hfirst := isAbsolute_of_no_slash hname.no_slash
        have hwhole := isAbsolute_slashed hnames
        have hbehind := isAbsolute_slashed fun other h => hnames other (List.mem_cons_of_mem name h)
        rw [slashed_cons name hnil] at hwhole
        obtain ⟨hjoined, hlast⟩ := join_last hp hname
        have hsecond : (p.join ⟨name⟩).join ⟨slashed names⟩ =
            ⟨(p.join ⟨name⟩).text ++ "/" ++ slashed names⟩ := by
          rw [join, hbehind]
          simp [hempty _ hjoined, hlast]
        rw [hsecond, join, join, hwhole, hfirst]
        by_cases hend : p.text.toList.getLast? = some '/'
        · simp [hempty p hp, hend, String.append_assoc]
        · simp [hempty p hp, hend, String.append_assoc]

/-! ## Paths put together from components -/

/-- What stands in front of a relative path that is joined to a path. -/
def beforeJoin (p : Path) : String :=
  if p.text.isEmpty || p.text.toList.getLast? == some '/' then p.text else p.text ++ "/"

/-- A relative path stands behind what stands in front of it when it is joined. -/
theorem join_eq {p q : Path} (hq : q.isAbsolute = false) : p.join q = ⟨p.beforeJoin ++ q.text⟩ := by
  rw [join, beforeJoin, hq, if_neg Bool.false_ne_true]
  split <;> rfl

/-- A path joined with a relative one and a name may be joined with one after the other. -/
theorem join_join {p q : Path} {name : String} (hq : q.text ≠ "") (hrelative : q.isAbsolute = false)
    (hname : IsName name) : p.join (q.join ⟨name⟩) = (p.join q).join ⟨name⟩ := by
  obtain ⟨_, _, _, _, habsolute⟩ := exists_segments_join hq hname
  have hfirst := isAbsolute_of_no_slash hname.no_slash
  have hlast : (p.beforeJoin ++ q.text).toList.getLast? = q.text.toList.getLast? := by
    have hne : q.text.toList ≠ [] := by simpa using hq
    obtain ⟨c, hc⟩ := Option.isSome_iff_exists.1 (List.getLast?_isSome.2 hne)
    rw [String.toList_append, List.getLast?_append, hc, Option.some_or]
  have hbefore : beforeJoin ⟨p.beforeJoin ++ q.text⟩ = p.beforeJoin ++ q.beforeJoin := by
    have hempty : (p.beforeJoin ++ q.text).isEmpty = q.text.isEmpty := by
      rw [Bool.eq_iff_iff, String.isEmpty_iff, String.isEmpty_iff]
      simp [hq]
    conv_lhs => rw [beforeJoin]
    rw [hempty, hlast, beforeJoin.eq_def q]
    split
    · rfl
    · exact String.append_assoc
  rw [join_eq (habsolute.trans hrelative), join_eq hrelative, join_eq hfirst, join_eq hfirst, hbefore,
    String.append_assoc]

/-- A path joined with a relative one along names may be joined with one after the other. -/
theorem join_along {p q : Path} {names : List String} (hq : q.text ≠ "")
    (hrelative : q.isAbsolute = false) (hnames : ∀ name ∈ names, IsName name) :
    p.join (q.along names) = (p.join q).along names := by
  induction names generalizing q with
  | nil => rfl
  | cons name names ih =>
      have hname := hnames name List.mem_cons_self
      obtain ⟨_, _, _, _, habsolute⟩ := exists_segments_join hq hname
      have hrest := ih (join_last hq hname).1 (habsolute.trans hrelative) fun other hother =>
        hnames other (List.mem_cons_of_mem name hother)
      rw [along, List.foldl_cons, ← along, hrest, join_join hq hrelative hname]
      rfl

/-- A dot that is joined to a path adds no component. -/
theorem components_join_current {p : Path} (hp : p.text ≠ "") :
    (p.join ⟨"."⟩).components = p.components := by
  obtain ⟨base, hjoin, hbase⟩ := @exists_join p "." hp (by decide)
  have hadded : added ['.'] = [] := by decide
  have htext {q : Path} {cs : List Char} (h : q.text.toList = cs) : q = ⟨String.ofList cs⟩ :=
    congrArg Path.mk (by rw [← h, String.ofList_toList])
  rw [htext hjoin]
  rcases hbase with hbase | ⟨hbase, hne⟩
  · rw [htext hbase]
    by_cases hnil : base = []
    · subst hnil
      decide
    · rw [components_append_slash hnil, components_append hnil (by decide)]
      exact List.append_nil _
  · rw [htext hbase, components_append hne (by decide)]
    exact List.append_nil _

/-- The name that a component is. -/
def Component.name? : Component → Option String
  | normal name => some name
  | _ => none

/-- The names among the components of a path. -/
def names (p : Path) : List String :=
  p.components.filterMap Component.name?

/-- A name among the components of a path is a proper one. -/
theorem isName_of_mem_components {p : Path} {name : String} (h : .normal name ∈ p.components) :
    IsName name := by
  obtain ⟨front, body, hcomponents, hfront, hbody⟩ := exists_components p
  rw [hcomponents] at h
  rcases List.mem_append.1 h with h | h
  · rcases hfront with rfl | rfl | rfl <;> simp at h
  · rcases hbody _ h with hparent | ⟨other, hother, hname⟩
    · simp at hparent
    · exact (Component.normal.inj hother) ▸ hname

/-- The name of the file that a path ends in is a proper one. -/
theorem isName_of_fileName? {p : Path} {name : String} (h : p.fileName? = some name) :
    IsName name := by
  have hlast : p.components.getLast? = some (.normal name) := by
    unfold fileName? at h
    split at h
    · next other hlast => rw [hlast, Option.some.inj h]
    · simp at h
  exact isName_of_mem_components (List.mem_of_getLast? hlast)

/-- The names of a path are proper ones. -/
theorem isName_of_mem_names {p : Path} {name : String} (h : name ∈ p.names) : IsName name := by
  obtain ⟨c, hc, hname⟩ := List.mem_filterMap.1 h
  cases c with
  | normal other => exact isName_of_mem_components (Option.some.inj hname ▸ hc)
  | root | current | parent => simp [Component.name?] at hname

/-- The components of a path that does not go up are names, but perhaps for the first one. -/
theorem components_eq_names {p : Path} (hdown : .parent ∉ p.components) :
    ∃ front, p.components = front ++ p.names.map .normal ∧
      (front = [] ∨ front = [.root] ∨ front = [.current]) := by
  obtain ⟨front, body, hcomponents, hfront, hbody⟩ := exists_components p
  have hnames : p.names = body.filterMap Component.name? := by
    rw [names, hcomponents, List.filterMap_append]
    rcases hfront with rfl | rfl | rfl <;> rfl
  refine ⟨front, ?_, hfront⟩
  rw [hcomponents, hnames, List.map_filterMap, List.append_cancel_left_eq]
  conv_lhs => rw [← List.filterMap_some (l := body)]
  refine List.filterMap_congr fun c hc => ?_
  rcases hbody c hc with rfl | ⟨name, rfl, _⟩
  · exact absurd (hcomponents ▸ List.mem_append_right front hc) hdown
  · rfl

/-- Joining a relative path to an empty one gives that path. -/
theorem join_empty {name : String} (hname : (⟨name⟩ : Path).isAbsolute = false) :
    join ⟨""⟩ ⟨name⟩ = ⟨name⟩ := by
  rw [join_eq hname]
  simp [beforeJoin]

/-- Joining names as components one after the other gives the path along the names. -/
theorem foldl_join_normal (p : Path) (names : List String) :
    (names.map Component.normal).foldl (fun p c => p.join c.path) p = p.along names := by
  rw [List.foldl_map]
  rfl

/-- The components of a path that does not go up, taken below another path. -/
theorem components_join_ofComponents {p q : Path} (hp : p.text ≠ "")
    (hdown : .parent ∉ q.components) :
    (p.join (ofComponents (q.components.filter (· != .root)))).components =
      p.components ++ q.names.map .normal := by
  obtain ⟨front, hcomponents, hfront⟩ := components_eq_names hdown
  have hnames : ∀ name ∈ q.names, IsName name := fun name => isName_of_mem_names
  have hkept : (q.names.map Component.normal).filter (· != .root) = q.names.map .normal :=
    List.filter_eq_self.2 fun c hc => by
      obtain ⟨name, _, rfl⟩ := List.mem_map.1 hc
      rfl
  rw [hcomponents, List.filter_append, hkept]
  have hplain : (p.join (ofComponents (q.names.map .normal))).components =
      p.components ++ q.names.map .normal := by
    rw [ofComponents, foldl_join_normal]
    cases hcases : q.names with
    | nil => exact (components_join hp (by decide) (by decide)).1
    | cons name more =>
        rw [hcases] at hnames
        have hname := hnames name List.mem_cons_self
        have hrelative := isAbsolute_of_no_slash hname.no_slash
        rw [along, List.foldl_cons, ← along, join_empty hrelative, join_along hname.ne_empty hrelative
          fun other hother => hnames other (List.mem_cons_of_mem name hother)]
        exact (components_along hp hnames).1
  rcases hfront with rfl | rfl | rfl
  · exact hplain
  · exact hplain
  -- a dot in front adds nothing
  · have hdot : ofComponents ([.current].filter (· != .root) ++ q.names.map .normal) =
        along ⟨"."⟩ q.names := by
      rw [ofComponents, List.foldl_append, foldl_join_normal]
      rfl
    have htext : (p.join ⟨"."⟩).text ≠ "" := fun hempty => by
      have hcomponents := components_join_current hp
      rw [show p.join ⟨"."⟩ = ⟨""⟩ from congrArg Path.mk hempty] at hcomponents
      exact components_ne_nil hp hcomponents.symm
    rw [hdot, join_along (by decide) (by decide) hnames, (components_along htext hnames).1,
      components_join_current hp]

end Path

end RpmRelease
