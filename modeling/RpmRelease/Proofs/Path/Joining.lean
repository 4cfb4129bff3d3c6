import RpmRelease.Proofs.Path.Moves

/-!
# Joining any relative path

A relative path that is joined to another one leaves the components of that one alone and adds its
moves, whether it begins with a dot or has two dots in it.  And components that are written one after
the other, with no root among them, are a relative path that makes the moves among them.
-/

set_option autoImplicit false

namespace RpmRelease

namespace Path

variable {p q : Path}

/-- Inner segments write what their texts add. -/
theorem written_map_inner (pieces : List (List Char)) :
    written (pieces.map Segment.inner) = pieces.flatMap added := by
  induction pieces with
  | nil => rfl
  | cons piece pieces ih =>
      rw [List.map_cons, ← List.singleton_append, written_append, ih, written, component_inner,
        List.flatMap_cons]

/-- The moves of a path are what its pieces add. -/
theorem moves_eq (q : Path) : q.moves = (Text.splitWhen (· == '/') q.text.toList).flatMap added := by
  rw [← moves_ofList, String.ofList_toList]

/-- What stands behind a slash adds its moves to what stands in front of it. -/
theorem components_append_moves {base : List Char} (hbase : base ≠ []) (rest : List Char) :
    components ⟨String.ofList (base ++ '/' :: rest)⟩ =
      components ⟨String.ofList base⟩ ++ moves ⟨String.ofList rest⟩ := by
  rw [components_eq, isAbsolute_append _ hbase, segments_append rest hbase, written_append,
    written_map_inner, ← moves_ofList, ← List.append_assoc, ← components_eq]

/-- A path joined with a relative one has its own components, and then the moves of the other. -/
theorem components_join_relative (hp : p.text ≠ "") (hq : q.isAbsolute = false) :
    (p.join q).components = p.components ++ q.moves := by
  obtain ⟨base, hjoin, hbase⟩ := exists_join_relative hp hq
  rw [eq_ofList hjoin]
  rcases hbase with hslash | ⟨hsame, hne⟩
  · rw [eq_ofList hslash]
    cases base with
    | nil =>
        rw [List.nil_append, components_eq_root_cons (by simp [isAbsolute]), moves_ofList,
          moves_eq, ← List.nil_append ('/' :: _), Text.splitWhen_append_cons [] _ (by decide)]
        rfl
    | cons c base =>
        rw [components_append_moves (by simp), components_append_slash (by simp),
          String.ofList_toList]
  · rw [components_append_moves hne, String.ofList_toList, eq_ofList hsame]

/-- A path joined with a relative one starts with it. -/
theorem startsWith_join_relative (hp : p.text ≠ "") (hq : q.isAbsolute = false) :
    (p.join q).startsWith p = true := by
  rw [startsWith, components_join_relative hp hq, List.isPrefixOf_iff_prefix]
  exact List.prefix_append _ _

/-! ## Components one after the other -/

/-- A component that is no root is a relative path with one move, or with none if it is a dot. -/
theorem Component.relative_path {c : Component} (h : c = .current ∨ c.Inner) :
    c.path.isAbsolute = false ∧ c.path.text ≠ "" ∧
      (Text.splitWhen (· == '/') c.path.text.toList).flatMap added =
        [c].filter fun c => c != .root && c != .current := by
  rcases h with rfl | hinner
  · exact ⟨by decide, by decide, by decide⟩
  · obtain ⟨hne, hslash, -, hadded⟩ := hinner.added_chars
    refine ⟨isAbsolute_of_no_slash hslash, fun h => hne (String.toList_eq_nil_iff.2 h), ?_⟩
    change (Text.splitWhen (· == '/') c.chars).flatMap added = _
    rw [splitWhen_of_no_slash hslash, List.flatMap_singleton, hadded]
    rcases hinner with rfl | ⟨name, rfl, -⟩ <;> rfl

/-- The moves of components one after the other are the components without the root and dots. -/
theorem flatMap_moves {cs : List Component} (h : ∀ c ∈ cs, c = .current ∨ c.Inner) :
    (cs.flatMap fun c => (Text.splitWhen (· == '/') c.path.text.toList).flatMap added) =
      cs.filter fun c => c != .root && c != .current := by
  induction cs with
  | nil => rfl
  | cons c cs ih =>
      obtain ⟨-, -, hmove⟩ := Component.relative_path (h c List.mem_cons_self)
      rw [List.flatMap_cons, hmove, ih fun d hd => h d (List.mem_cons_of_mem c hd),
        ← List.filter_append, List.singleton_append]

/-- A path of components begins with the first one and goes along the others. -/
theorem ofComponents_cons {c : Component} (hc : c.path.isAbsolute = false) (cs : List Component) :
    ofComponents (c :: cs) = c.path.along (cs.map fun c => c.path.text) := by
  have hfirst : join ⟨""⟩ c.path = c.path := join_empty hc
  rw [ofComponents, List.foldl_cons, hfirst, along, List.foldl_map]

/-- A path made of components is relative, and has them as its moves but for dots. -/
theorem ofComponents_spec {cs : List Component} (h : ∀ c ∈ cs, c = .current ∨ c.Inner) :
    (ofComponents cs).isAbsolute = false ∧
      (ofComponents cs).moves = cs.filter fun c => c != .root && c != .current := by
  cases cs with
  | nil => decide
  | cons c cs =>
      obtain ⟨hrelative, htext, -⟩ := Component.relative_path (h c List.mem_cons_self)
      have hrest : ∀ t ∈ cs.map fun c => c.path.text, (⟨t⟩ : Path).isAbsolute = false := by
        intro t ht
        obtain ⟨d, hd, rfl⟩ := List.mem_map.1 ht
        exact (Component.relative_path (h d (List.mem_cons_of_mem c hd))).1
      obtain ⟨-, habsolute, hmoves⟩ := along_spec htext hrest
      rw [ofComponents_cons hrelative, habsolute, hmoves, List.flatMap_map, moves_eq,
        ← flatMap_moves h, List.flatMap_cons]
      exact ⟨hrelative, rfl⟩

/-- A path without its root, put together again, is relative and makes the same moves. -/
theorem ofComponents_below_root (p : Path) :
    (ofComponents (p.components.filter (· != .root))).isAbsolute = false ∧
      (ofComponents (p.components.filter (· != .root))).moves = p.moves := by
  obtain ⟨front, body, hcomponents, hfront, hbody⟩ := exists_components p
  have hkept : ∀ c ∈ p.components.filter (· != .root), c = .current ∨ c.Inner := by
    intro c hc
    obtain ⟨hmem, hroot⟩ := List.mem_filter.1 hc
    rw [hcomponents] at hmem
    rcases List.mem_append.1 hmem with hmem | hmem
    · rcases hfront with rfl | rfl | rfl <;> simp_all
    · exact .inr (hbody c hmem)
  obtain ⟨hrelative, hmoves⟩ := ofComponents_spec hkept
  refine ⟨hrelative, ?_⟩
  rw [hmoves, List.filter_filter, moves]
  congr 1
  funext c
  cases c <;> rfl

/-! ## Names behind a path -/

/-- Names behind a path stand behind its components, also when the path is empty. -/
theorem components_along_names {names : List String} (hnames : ∀ name ∈ names, IsName name) :
    (p.along names).components = p.components ++ names.map .normal := by
  by_cases hp : p.text = ""
  · obtain rfl : p = ⟨""⟩ := congrArg mk hp
    cases names with
    | nil => rw [along_nil, List.map_nil, List.append_nil]
    | cons name names =>
        have hname := hnames name List.mem_cons_self
        have hrest : ∀ other ∈ names, IsName other := fun other hother =>
          hnames other (List.mem_cons_of_mem name hother)
        have hinner : Component.Inner (.normal name) := .inr ⟨name, rfl, hname⟩
        have hfirst : components ⟨name⟩ = [.normal name] := by
          obtain ⟨hne, hslash, hcomponent, -⟩ := hinner.added_chars
          have hwhole := components_segment hne hslash
          rwa [hcomponent, Component.chars, String.ofList_toList] at hwhole
        rw [along, List.foldl_cons, ← along, join_empty (isAbsolute_of_no_slash hname.no_slash),
          (components_along hname.ne_empty hrest).1, hfirst]
        rfl
  · exact (components_along hp hnames).1

/-- A path that ends in a name has a path above it. -/
theorem exists_parent? {name : String} (h : .normal name ∈ p.components) :
    ∃ above, p.parent? = some above := by
  unfold parent?
  cases hcut : (trimSegments p.segments).reverse with
  | nil =>
      have hwritten := (trimSegments_spec p.segments).2
      rw [List.reverse_eq_nil_iff.1 hcut] at hwritten
      rw [components_eq, ← hwritten] at h
      cases habsolute : p.isAbsolute <;> simp [habsolute, written] at h
  | cons s front => exact ⟨_, rfl⟩

end Path

end RpmRelease
