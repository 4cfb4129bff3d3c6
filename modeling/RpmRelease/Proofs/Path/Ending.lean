import RpmRelease.Proofs.Path.Above
import RpmRelease.Proofs.Text.Lines

/-!
# How paths end

A path that was cut out of another one, above a component or behind one, has no segments at its end that
mean nothing.  When its last component is a name, its text ends in that name.  And a path above another
one is the beginning of its text.
-/

set_option autoImplicit false

namespace RpmRelease.Path

variable {p q base rest : Path} {name : String}

/-! ## The text of a path and its pieces -/

/-- Fewer texts with slashes between them are a beginning of more. -/
theorem intercalate_prefix {front whole : List (List Char)} (h : front <+: whole) :
    List.intercalate ['/'] front <+: List.intercalate ['/'] whole := by
  induction front generalizing whole with
  | nil => exact List.nil_prefix
  | cons piece front ih =>
      obtain ⟨more, rfl⟩ := h
      cases front with
      | nil =>
          cases more with
          | nil => exact List.prefix_rfl
          | cons next more =>
              rw [List.cons_append, List.nil_append, List.intercalate_cons_cons]
              simp
      | cons next front =>
          have hrest := ih (List.prefix_append (next :: front) more)
          rw [List.cons_append, List.cons_append, List.intercalate_cons_cons,
            List.intercalate_cons_cons]
          exact (List.prefix_append_right_inj _).2 hrest

/-- A path is made of its segments again. -/
theorem ofSegments_segments (hp : p.text ≠ "") : ofSegments p.isAbsolute p.segments = p := by
  have hinner (pieces : List (List Char)) : (pieces.map Segment.inner).map Segment.text = pieces := by
    rw [List.map_map]
    exact List.map_id pieces
  obtain ⟨text⟩ := p
  rcases cases_segments ⟨text⟩ with ⟨cs, hcs, habsolute, hsegments⟩ |
    ⟨first, more, hcut, -, hrelative, hsegments⟩
  · obtain rfl : text = String.ofList ('/' :: cs) := by simpa using congrArg String.ofList hcs
    rw [habsolute, hsegments, ofSegments, hinner, Text.intercalate_splitWhen]
    rfl
  · rw [hrelative, hsegments, ofSegments, List.map_cons, hinner, ← hcut, Text.intercalate_splitWhen]
    simp

/-- Fewer segments make the beginning of a text. -/
theorem ofSegments_prefix {absolute : Bool} {front whole : List Segment} (h : front <+: whole) :
    (ofSegments absolute front).text.toList <+: (ofSegments absolute whole).text.toList := by
  have hbody := intercalate_prefix (h.map Segment.text)
  cases absolute with
  | true => simpa [ofSegments] using hbody
  | false => simpa [ofSegments] using hbody

/-- The path above a path is made of its first segments. -/
theorem exists_of_parent? (h : p.parent? = some q) : p.text ≠ "" ∧
    ∃ segments, trimSegments segments <+: p.segments ∧
      q = ofSegments p.isAbsolute (trimSegments segments) := by
  obtain ⟨hp, front, s, htrim, rfl⟩ := of_parent? h
  refine ⟨hp, front, ?_, rfl⟩
  exact (trimSegments_spec _).1.trans
    ((List.prefix_append _ [s]).trans (htrim ▸ (trimSegments_spec p.segments).1))

/-- The path above a path is the beginning of its text. -/
theorem parent?_prefix (h : p.parent? = some q) : q.text.toList <+: p.text.toList := by
  obtain ⟨hp, segments, hprefix, rfl⟩ := exists_of_parent? h
  conv_rhs => rw [← ofSegments_segments hp]
  exact ofSegments_prefix hprefix

/-! ## The last piece -/

/-- The text of a path ends in a name. -/
def EndsIn (p : Path) (name : String) : Prop :=
  (Text.splitWhen (· == '/') p.text.toList).getLast? = some name.toList

/-- A path whose last component is a name ends in it when nothing that does not count is left at its
end. -/
theorem endsIn_ofSegments {absolute : Bool} {segments : List Segment}
    (hfits : Segment.Fitting absolute (trimSegments segments))
    (h : (ofSegments absolute (trimSegments segments)).components.getLast? = some (.normal name)) :
    (ofSegments absolute (trimSegments segments)).EndsIn name := by
  rw [(components_ofSegments hfits).1] at h
  rcases List.eq_nil_or_concat' (trimSegments segments) with hnil | ⟨front, s, hlast⟩
  · rw [hnil] at h
    cases absolute <;> simp [written] at h
  · have hcounts := counts_of_trimSegments hlast
    have hcomponent : s.component = .normal name := by
      have hwritten : written [s] = [s.component] := by
        rw [written, List.filter_cons_of_pos hcounts]
        rfl
      rw [hlast, written_append, hwritten, ← List.append_assoc, List.getLast?_concat] at h
      exact Option.some.inj h
    have htext : s.text = name.toList := by
      rw [Segment.component] at hcomponent
      split at hcomponent
      · simp at hcomponent
      · split at hcomponent
        · simp at hcomponent
        · rw [← Component.normal.inj hcomponent, String.toList_ofList]
    have hpieces : (Text.splitWhen (· == '/')
        (List.intercalate ['/'] ((trimSegments segments).map Segment.text))).getLast? =
        some name.toList := by
      rw [splitWhen_texts hfits (by simp [hlast]), hlast, List.map_append, List.map_singleton,
        List.getLast?_concat, htext]
    rw [EndsIn, ofSegments, String.toList_ofList]
    cases absolute with
    | false => exact hpieces
    | true =>
        rw [if_pos rfl, Text.splitWhen, if_pos (by simp), List.getLast?_cons, hpieces]
        rfl

/-- The path above a path ends in its last component, if that is a name. -/
theorem endsIn_parent? (h : p.parent? = some q)
    (hlast : q.components.getLast? = some (.normal name)) : q.EndsIn name := by
  obtain ⟨hp, segments, hprefix, rfl⟩ := exists_of_parent? h
  exact endsIn_ofSegments ((fitting_segments hp).front hprefix) hlast

/-- The part of a path below another one ends in its last component, if that is a name. -/
theorem endsIn_below? (hp : p.text ≠ "") (h : p.below? base = some rest)
    (hlast : rest.components.getLast? = some (.normal name)) : rest.EndsIn name := by
  rw [below?] at h
  split at h
  · simp only [Option.some.injEq] at h
    generalize (if p.isAbsolute then base.components.length - 1 else
      base.components.length) = n at h
    obtain ⟨hsuffix, -, hfirst⟩ := dropSegments_spec n p.segments
    have hfits : Segment.Fitting false (trimSegments (dropSegments n p.segments)) :=
      ((fitting_segments hp).rest hsuffix hfirst).front (trimSegments_spec _).1
    subst h
    exact endsIn_ofSegments hfits hlast
  · simp at h

/-- Behind another path, a path ends as it does alone. -/
theorem EndsIn.join (hp : p.text ≠ "") (hq : q.isAbsolute = false) (h : q.EndsIn name) :
    (p.join q).EndsIn name := by
  obtain ⟨front, hjoin, -⟩ := exists_join_relative hp hq
  rw [EndsIn, hjoin, Text.splitWhen_append_cons _ _ (by simp), List.getLast?_append, h]
  rfl

end RpmRelease.Path
