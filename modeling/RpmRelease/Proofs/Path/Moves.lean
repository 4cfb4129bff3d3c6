import RpmRelease.Proofs.Path.Above

/-!
# The moves of a path

The root and single dots among the components of a path do not move anywhere.  What is left are the
moves: to the directory above, or to a name.  Every segment of a path makes its move wherever it stands,
so that the moves of a path that is put together are those of its parts, one after the other.
-/

set_option autoImplicit false

namespace RpmRelease

namespace Path

/-! ## Moves -/

/-- The components of a path without the root and dots: where it goes from wherever it begins. -/
def moves (p : Path) : List Component :=
  p.components.filter fun c => c != .root && c != .current

/-- A path that never leads upwards moves along its names. -/
theorem moves_eq_names {p : Path} (h : .parent ∉ p.components) : p.moves = p.names.map .normal := by
  obtain ⟨front, hcomponents, hfront⟩ := components_eq_names h
  have hkept : (p.names.map Component.normal).filter (fun c => c != .root && c != .current) =
      p.names.map .normal := by
    refine List.filter_eq_self.2 fun c hc => ?_
    obtain ⟨name, -, rfl⟩ := List.mem_map.1 hc
    rfl
  rw [moves, hcomponents, List.filter_append, hkept]
  rcases hfront with rfl | rfl | rfl <;> rfl

/-- What a piece adds is neither the root nor a dot. -/
theorem filter_added {piece : List Char} (hpiece : '/' ∉ piece) :
    (added piece).filter (fun c => c != .root && c != .current) = added piece := by
  refine List.filter_eq_self.2 fun c hc => ?_
  rcases inner_of_mem_added hpiece hc with rfl | ⟨name, rfl, -⟩ <;> rfl

/-- Inner segments give what their pieces add, which is neither the root nor a dot. -/
theorem filter_components_inner {pieces : List (List Char)} (hpieces : ∀ piece ∈ pieces, '/' ∉ piece) :
    (((pieces.map Segment.inner).filter (·.counts)).map Segment.component).filter
      (fun c => c != .root && c != .current) = pieces.flatMap added := by
  induction pieces with
  | nil => rfl
  | cons piece pieces ih =>
      have hrest := ih fun other hother => hpieces other (List.mem_cons_of_mem piece hother)
      rw [← List.singleton_append, List.map_append, List.filter_append, List.map_append,
        List.filter_append, hrest, List.map_singleton, component_inner,
        filter_added (hpieces piece List.mem_cons_self), List.flatMap_append]
      simp

/-- Every segment of a path adds its move, wherever it stands. -/
theorem moves_ofList (cs : List Char) :
    moves ⟨String.ofList cs⟩ = (Text.splitWhen (· == '/') cs).flatMap added := by
  rcases cases_segments ⟨String.ofList cs⟩ with ⟨rest, hcs, habsolute, hsegments⟩ |
    ⟨first, more, hcut, -, hrelative, hsegments⟩
  · obtain rfl : cs = '/' :: rest := by simpa using hcs
    have hcut : Text.splitWhen (· == '/') ('/' :: rest) = [] :: Text.splitWhen (· == '/') rest :=
      Text.splitWhen_append_cons [] rest (by decide)
    rw [moves, components, habsolute, hsegments, List.filter_append,
      filter_components_inner fun piece => not_mem_of_mem_splitWhen, hcut, List.flatMap_cons]
    rfl
  · rw [String.toList_ofList] at hcut
    have hfirst : '/' ∉ first := not_mem_of_mem_splitWhen (hcut ▸ List.mem_cons_self)
    have hmore : ∀ piece ∈ more, '/' ∉ piece := fun piece hpiece =>
      not_mem_of_mem_splitWhen (hcut ▸ List.mem_cons_of_mem first hpiece)
    rw [moves, components, hrelative, hsegments, hcut, List.flatMap_cons,
      ← filter_components_inner hmore]
    by_cases hempty : first = []
    · subst hempty
      rfl
    · rw [components_first _ hempty]
      by_cases hdot : first = ['.']
      · subst hdot
        rfl
      · have hadded : added first = [(Segment.inner first).component] := by
          rw [added, if_neg (by simp [hempty, hdot])]
        have hkept := filter_added hfirst
        rw [hadded] at hkept ⊢
        rw [if_neg (by simp), List.nil_append, List.filter_cons, List.singleton_append]
        rw [if_pos (List.filter_eq_self.1 hkept _ List.mem_cons_self)]

/-- The moves of a text with a slash in it are those of what is in front and what the pieces behind
add. -/
theorem moves_append_slash (front rest : List Char) :
    moves ⟨String.ofList (front ++ '/' :: rest)⟩ =
      moves ⟨String.ofList front⟩ ++ (Text.splitWhen (· == '/') rest).flatMap added := by
  rw [moves_ofList, Text.splitWhen_append_cons front rest (by decide), List.flatMap_append,
    moves_ofList]

/-- An absolute path makes its moves from the root. -/
theorem components_eq_root_cons {p : Path} (h : p.isAbsolute = true) :
    p.components = .root :: p.moves := by
  obtain ⟨front, body, hcomponents, hfront, hbody⟩ := exists_components p
  have hhead := (isAbsolute_iff p).1 h
  have hkept : body.filter (fun c => c != .root && c != .current) = body :=
    List.filter_eq_self.2 fun c hc => by
      rcases hbody c hc with rfl | ⟨name, rfl, -⟩ <;> rfl
  rw [moves, hcomponents, List.filter_append, hkept]
  rcases hfront with rfl | rfl | rfl
  · cases body with
    | nil => simp [hcomponents] at hhead
    | cons c body =>
        obtain rfl : c = .root := by simpa [hcomponents] using hhead
        rcases hbody .root List.mem_cons_self with hroot | ⟨name, hroot, -⟩ <;> cases hroot
  · rfl
  · simp [hcomponents] at hhead

/-- The move that a segment adds is written as the segment is. -/
theorem map_chars_added {piece : List Char} (hne : piece ≠ []) (hdot : piece ≠ ['.']) :
    (added piece).map Component.chars = [piece] := by
  have hcomponent : (Segment.inner piece).component =
      if piece = ['.', '.'] then .parent else .normal (String.ofList piece) :=
    if_neg hdot
  rw [added, if_neg (by simp [hne, hdot]), hcomponent, List.map_singleton, List.singleton_inj]
  split
  · next hparent => exact hparent.symm
  · exact String.toList_ofList

/-! ## Joining relative texts -/

/-- A path is known by its characters. -/
theorem eq_ofList {p : Path} {cs : List Char} (h : p.text.toList = cs) : p = ⟨String.ofList cs⟩ :=
  congrArg Path.mk (by rw [← h, String.ofList_toList])

/-- A path joined with a relative one makes the moves of both. -/
theorem moves_join {p q : Path} (hp : p.text ≠ "") (hq : q.isAbsolute = false) :
    (p.join q).moves =
      p.moves ++ (Text.splitWhen (· == '/') q.text.toList).flatMap added := by
  obtain ⟨base, hjoin, hbase⟩ := exists_join_relative hp hq
  rw [eq_ofList hjoin, moves_append_slash]
  rcases hbase with hbase | ⟨hbase, -⟩ <;> rw [eq_ofList hbase]
  rw [moves_append_slash]
  simp [Text.splitWhen, added]

/-- A path joined with a relative one is not empty. -/
theorem text_join_ne {p q : Path} (hp : p.text ≠ "") (hq : q.isAbsolute = false) :
    (p.join q).text ≠ "" := by
  obtain ⟨base, hjoin, -⟩ := exists_join_relative hp hq
  intro hempty
  simp [hempty] at hjoin

/-- A path joined with another one is as long as both and a slash at most. -/
theorem size_join_le (p q : Path) :
    (p.join q).text.utf8ByteSize ≤ p.text.utf8ByteSize + q.text.utf8ByteSize + 1 := by
  have hslash : "/".utf8ByteSize = 1 := by decide
  unfold join
  split_ifs
  · omega
  · rw [String.utf8ByteSize_append]
    omega
  · rw [String.utf8ByteSize_append, String.utf8ByteSize_append, hslash]
    omega

/-- But for slashes, the characters of a joined path are those of both. -/
theorem mem_join_iff {p q : Path} {c : Char} (hc : c ≠ '/') (hp : p.text ≠ "")
    (hq : q.isAbsolute = false) :
    c ∈ (p.join q).text.toList ↔ c ∈ p.text.toList ∨ c ∈ q.text.toList := by
  obtain ⟨base, hjoin, hbase⟩ := exists_join_relative hp hq
  rw [hjoin]
  rcases hbase with hbase | ⟨hbase, -⟩ <;> simp [hbase, hc]

section Along

variable {p : Path} {texts : List String}

/-- Along no texts a path stays as it is. -/
theorem along_nil (p : Path) : p.along [] = p := rfl

/-- Along one text a path is joined with it. -/
theorem along_singleton (p : Path) (t : String) : p.along [t] = p.join ⟨t⟩ := rfl

/-- Relative texts behind a path add their moves to it. -/
theorem along_spec (hp : p.text ≠ "") (htexts : ∀ t ∈ texts, (⟨t⟩ : Path).isAbsolute = false) :
    (p.along texts).text ≠ "" ∧ (p.along texts).isAbsolute = p.isAbsolute ∧
      (p.along texts).moves =
        p.moves ++ texts.flatMap fun t => (Text.splitWhen (· == '/') t.toList).flatMap added := by
  induction texts generalizing p with
  | nil => exact ⟨hp, rfl, (List.append_nil _).symm⟩
  | cons t texts ih =>
      have ht := htexts t List.mem_cons_self
      obtain ⟨htext, habsolute, hmoves⟩ :=
        ih (text_join_ne hp ht) fun other hother => htexts other (List.mem_cons_of_mem t hother)
      refine ⟨htext, habsolute.trans (isAbsolute_join hp ht), hmoves.trans ?_⟩
      rw [moves_join hp ht, List.append_assoc, List.flatMap_cons]

/-- The path along some texts is no longer than the path, the texts and a slash for each of them. -/
theorem size_along_le (p : Path) (texts : List String) :
    (p.along texts).text.utf8ByteSize ≤ p.text.utf8ByteSize + sizes texts + texts.length := by
  induction texts generalizing p with
  | nil => exact Nat.le_refl _
  | cons t texts ih =>
      have hjoin := size_join_le p ⟨t⟩
      have hrest := ih (p.join ⟨t⟩)
      simp only [sizes, List.map_cons, List.sum_cons, List.length_cons] at hrest hjoin ⊢
      exact Nat.le_trans hrest (by omega)

/-- But for slashes, the characters of a path along texts are those of the path and the texts. -/
theorem mem_along_iff {c : Char} (hc : c ≠ '/') (hp : p.text ≠ "")
    (htexts : ∀ t ∈ texts, (⟨t⟩ : Path).isAbsolute = false) :
    c ∈ (p.along texts).text.toList ↔ c ∈ p.text.toList ∨ ∃ t ∈ texts, c ∈ t.toList := by
  induction texts generalizing p with
  | nil => simp [along]
  | cons t texts ih =>
      have ht := htexts t List.mem_cons_self
      have hrest := ih (text_join_ne hp ht) fun other hother =>
        htexts other (List.mem_cons_of_mem t hother)
      rw [along, List.foldl_cons, ← along, hrest, mem_join_iff hc hp ht, or_assoc]
      simp

end Along

end Path

end RpmRelease
