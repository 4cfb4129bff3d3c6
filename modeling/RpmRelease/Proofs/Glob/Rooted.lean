import RpmRelease.Proofs.FileSystem.Listed
import RpmRelease.Proofs.Glob.Root

/-!
# What a pattern stands for does not depend on its root

Two roots lead to trees that look the same, whatever the roots are called and wherever they are.  Then a
pattern stands for the same paths below both, in the same order, or it fails for the same reason.  The
searches for it go side by side: below both roots they try the same texts, and they find the same entries
in the same order, since these are in the order of their names.

No path must become too long on the way.  A text that a search tries is a name that stands in the tree, or
it is taken from the pattern; so nothing becomes longer than the root, the way to some node and the pattern
together.
-/

set_option autoImplicit false

namespace RpmRelease.Glob

open Lookup (LeadsDown Paired Reaches Short found trailed Behind)
open FileSystem (Twins)

variable {caller : Caller} {fs₁ fs₂ : FileSystem} {top₁ top₂ : Location} {p₁ p₂ : Path}

/-! ## Results behind two paths -/

/-- What is found behind two paths is behind both by the same texts, or the same directory cannot be
listed. -/
inductive SameFound (p₁ p₂ : Path) : Except ListError (List Path) → Except ListError (List Path) → Prop
  | found (ends : List (List String)) (h : ∀ texts ∈ ends, ∀ t ∈ texts, LeadsDown t) :
    SameFound p₁ p₂ (.ok (ends.map p₁.along)) (.ok (ends.map p₂.along))
  | unlisted (texts : List String) (h : ∀ t ∈ texts, LeadsDown t) (cause : FileError) :
    SameFound p₁ p₂ (.error ⟨p₁.along texts, cause⟩) (.error ⟨p₂.along texts, cause⟩)

namespace SameFound

/-- Nothing is found behind both paths. -/
theorem nothing : SameFound p₁ p₂ (.ok []) (.ok []) :=
  .found [] (by simp)

/-- What is found twice is the same when each of both is. -/
theorem append {x₁ x₂ y₁ y₂ : Except ListError (List Path)} (hx : SameFound p₁ p₂ x₁ x₂)
    (hy : SameFound p₁ p₂ y₁ y₂) :
    SameFound p₁ p₂ (do let a ← x₁; let b ← y₁; return a ++ b)
      (do let a ← x₂; let b ← y₂; return a ++ b) := by
  cases hx with
  | unlisted texts h cause => exact .unlisted texts h cause
  | found ends h =>
      cases hy with
      | unlisted texts h cause => exact .unlisted texts h cause
      | found others hothers =>
          have hall : ∀ texts ∈ ends ++ others, ∀ t ∈ texts, LeadsDown t := fun texts htexts =>
            (List.mem_append.1 htexts).elim (h texts) (hothers texts)
          have hboth : SameFound p₁ p₂ _ _ := .found (ends ++ others) hall
          rwa [List.map_append, List.map_append] at hboth

/-- What is found through items one after the other. -/
theorem flatten_mapM {α β : Type} {R : α → β → Prop} {f : α → Except ListError (List Path)}
    {g : β → Except ListError (List Path)} {as : List α} {bs : List β} (h : List.Forall₂ R as bs)
    (hitem : ∀ a ∈ as, ∀ b, R a b → SameFound p₁ p₂ (f a) (g b)) :
    SameFound p₁ p₂ (List.flatten <$> as.mapM f) (List.flatten <$> bs.mapM g) := by
  have hcons {ι : Type} (f : ι → Except ListError (List Path)) (i : ι) (is : List ι) :
      List.flatten <$> (i :: is).mapM f = do
        let a ← f i
        let b ← List.flatten <$> is.mapM f
        return a ++ b := by
    rw [List.mapM_cons]
    cases f i with
    | error e => rfl
    | ok a => cases is.mapM f <;> rfl
  induction h with
  | nil => exact nothing
  | cons hab _ ih =>
      rw [hcons, hcons]
      exact (hitem _ List.mem_cons_self _ hab).append
        (ih fun a ha => hitem a (List.mem_cons_of_mem _ ha))

end SameFound

/-! ## Lengths -/

/-- The most bytes by which texts make a path longer. -/
def span (texts : List String) : Nat :=
  Path.sizes texts + texts.length

/-- Texts one after the other make a path longer by what each of them does. -/
theorem span_append (texts others : List String) : span (texts ++ others) = span texts + span others := by
  simp only [span, Path.sizes, List.map_append, List.sum_append, List.length_append]
  omega

/-- One text makes a path longer by its size and a slash. -/
theorem span_singleton (t : String) : span [t] = t.utf8ByteSize + 1 := by
  simp [span, Path.sizes]

/-- The most bytes by which the path of a component becomes longer than what stands there. -/
def Component.weight : Component → Nat
  | literal text => span [String.ofList text]
  | _ => 0

/-- The weight of all components. -/
def weights (pattern : List Component) : Nat :=
  (pattern.map Component.weight).sum

/-- Components weigh what the first one does and the others do. -/
theorem weights_cons (first : Component) (rest : List Component) :
    weights (first :: rest) = first.weight + weights rest := by
  rw [weights, List.map_cons, List.sum_cons, ← weights]

/-- Fewer components weigh no more. -/
theorem weights_le_of_sublist {front pattern : List Component} (h : front.Sublist pattern) :
    weights front ≤ weights pattern := by
  induction h with
  | slnil => exact Nat.le_refl _
  | cons component _ ih =>
      rw [weights_cons]
      omega
  | cons_cons component _ ih =>
      rw [weights_cons, weights_cons]
      omega

/-! ## Two searches side by side -/

/-- A component that does not lead up. -/
def Component.Keeps : Component → Prop
  | literal text => '/' ∉ text ∧ text ≠ ['.', '.']
  | component => component.Stays

/-- Where two searches have come: behind both paths by the same texts, which lead to something there.
What these texts and the rest of the pattern add is no more than what leads there and some room. -/
structure Visit (fs₁ : FileSystem) (top₁ : Location) (room : Nat) (texts : List String)
    (pattern : List Component) : Prop where
  leadsDown : ∀ t ∈ texts, LeadsDown t
  stands : ∃ node, fs₁.get? (top₁ ++ trailed texts) = some node
  room : span texts + weights pattern ≤ span (trailed texts) + room

/-- Paths that are behind both paths by the same texts. -/
structure SameCandidate (p₁ p₂ : Path) (texts : List String) (c₁ c₂ : Candidate) : Prop where
  first : c₁.path = p₁.along texts
  second : c₂.path = p₂.along texts
  isDirectory : c₁.isDirectory = c₂.isDirectory

/-- Whatever stands below a location, the way to it and some room fit into the length of a path behind
both paths. -/
def Fits (fs₁ : FileSystem) (top₁ : Location) (room : Nat) (p₁ p₂ : Path) : Prop :=
  ∀ names node, fs₁.get? (top₁ ++ names) = some node →
    p₁.text.utf8ByteSize + span names + room < Lookup.maxPath ∧
      p₂.text.utf8ByteSize + span names + room < Lookup.maxPath

section Searches

variable {room : Nat} {texts : List String} {pattern rest : List Component}

/-- The texts of a visit may follow both paths. -/
theorem Visit.short (v : Visit fs₁ top₁ room texts pattern) (hfits : Fits fs₁ top₁ room p₁ p₂) :
    Short p₁ p₂ texts := by
  obtain ⟨node, hnode⟩ := v.stands
  obtain ⟨hfirst, hsecond⟩ := hfits _ node hnode
  have hroom := v.room
  constructor <;> simp only [span] at * <;> omega

/-- A search goes on to an entry. -/
theorem Visit.entry (v : Visit fs₁ top₁ room texts pattern) {name : String} {node : Node}
    (hname : Path.IsName name) (hnode : fs₁.get? (top₁ ++ trailed texts ++ [name]) = some node)
    (hrest : weights rest ≤ weights pattern) : Visit fs₁ top₁ room (texts ++ [name]) rest := by
  have htrailed : trailed (texts ++ [name]) = trailed texts ++ [name] := by
    rw [Lookup.trailed_concat, Lookup.found_name hname]
    rfl
  have hroom := v.room
  refine ⟨?_, ⟨node, by rwa [htrailed, ← List.append_assoc]⟩, ?_⟩
  · intro t ht
    rcases List.mem_append.1 ht with ht | ht
    · exact v.leadsDown t ht
    · exact List.mem_singleton.1 ht ▸ Lookup.leadsDown_name hname
  · rw [htrailed, span_append, span_append]
    omega

/-- A search can look at the path of a literal component. -/
theorem Visit.short_literal {text : List Char} (v : Visit fs₁ top₁ room texts (.literal text :: rest))
    (hfits : Fits fs₁ top₁ room p₁ p₂) : Short p₁ p₂ (texts ++ [String.ofList text]) := by
  obtain ⟨node, hnode⟩ := v.stands
  obtain ⟨hfirst, hsecond⟩ := hfits _ node hnode
  have hroom := v.room
  have hspan := span_append texts [String.ofList text]
  rw [weights_cons, Component.weight] at hroom
  constructor <;> simp only [span] at * <;> omega

/-- A literal component that does not lead up is one more text that leads down. -/
theorem leadsDown_concat {text : List Char} (h : ∀ t ∈ texts, LeadsDown t)
    (htext : (Component.literal text).Keeps) : ∀ t ∈ texts ++ [String.ofList text], LeadsDown t := by
  intro t ht
  rcases List.mem_append.1 ht with ht | ht
  · exact h t ht
  · exact List.mem_singleton.1 ht ▸ Lookup.leadsDown_of_no_slash htext.1 htext.2

/-- A search goes on to the path of a literal component, where something stands. -/
theorem Visit.literal {text : List Char} (v : Visit fs₁ top₁ room texts (.literal text :: rest))
    (htext : (Component.literal text).Keeps)
    (hstands : ∃ node, fs₁.get? (top₁ ++ trailed (texts ++ [String.ofList text])) = some node) :
    Visit fs₁ top₁ room (texts ++ [String.ofList text]) rest := by
  have hroom := v.room
  rw [weights_cons, Component.weight] at hroom
  refine ⟨leadsDown_concat v.leadsDown htext, hstands, ?_⟩
  rw [Lookup.trailed_concat, span_append, span_append]
  omega

variable {c₁ c₂ : Candidate}

/-- A search goes on with the same candidate behind both paths. -/
theorem SameCandidate.next (h : Paired caller fs₁ p₁ top₁ fs₂ p₂ top₂)
    (hc : SameCandidate p₁ p₂ texts c₁ c₂) {t : String} (hshort : Short p₁ p₂ (texts ++ [t]))
    (htexts : ∀ t' ∈ texts ++ [t], LeadsDown t') :
    SameCandidate p₁ p₂ (texts ++ [t]) (.ofPath caller fs₁ (c₁.path.join ⟨t⟩))
      (.ofPath caller fs₂ (c₂.path.join ⟨t⟩)) := by
  rw [hc.first, hc.second, ← Path.along_concat, ← Path.along_concat]
  exact ⟨rfl, rfl, h.isDirectory_eq hshort htexts⟩

/-- Two searches begin alike. -/
theorem sameCandidate_start (h : Paired caller fs₁ p₁ top₁ fs₂ p₂ top₂) (hshort : Short p₁ p₂ []) :
    SameCandidate p₁ p₂ [] (.ofPath caller fs₁ p₁) (.ofPath caller fs₂ p₂) where
  first := (Path.along_nil p₁).symm
  second := (Path.along_nil p₂).symm
  isDirectory := by
    have hdirectory := h.isDirectory_eq hshort (by simp)
    rw [Path.along_nil, Path.along_nil] at hdirectory
    rw [Candidate.ofPath, Candidate.ofPath, hdirectory]

/-- Something stands behind both paths by the same texts, or behind neither. -/
theorem stands_twins (h : Paired caller fs₁ p₁ top₁ fs₂ p₂ top₂) (hshort : Short p₁ p₂ texts)
    (htexts : ∀ t ∈ texts, LeadsDown t) (hne : texts ≠ []) :
    stands caller fs₁ (p₁.along texts) = stands caller fs₂ (p₂.along texts) := by
  rw [stands, stands, h.reaches_eq hshort htexts, h.isOk_lstat hshort htexts hne]

/-- Where something stands behind both paths, it is in the tree. -/
theorem exists_of_stands (h : Paired caller fs₁ p₁ top₁ fs₂ p₂ top₂) (hshort : Short p₁ p₂ texts)
    (htexts : ∀ t ∈ texts, LeadsDown t) (hne : texts ≠ [])
    (hstands : stands caller fs₁ (p₁.along texts) = true) :
    ∃ node, fs₁.get? (top₁ ++ trailed texts) = some node := by
  obtain ⟨follow, r, hfind⟩ := stands_iff.1 hstands
  rcases (h.find_twins follow hshort htexts (.inl hne)).error_or_ok with
    ⟨e, he, -⟩ | ⟨a, b, ha, -, hplace, -⟩
  · rw [hfind] at he
    cases he
  · exact ⟨a.2, hplace ▸ Lookup.get?_of_find ha⟩

/-- Two searches go on with the path of a literal component alike. -/
theorem goesOn_twins (h : Paired caller fs₁ p₁ top₁ fs₂ p₂ top₂) {text : List Char}
    (hc : SameCandidate p₁ p₂ texts c₁ c₂) (hshort : Short p₁ p₂ (texts ++ [String.ofList text]))
    (htexts : ∀ t ∈ texts ++ [String.ofList text], LeadsDown t) :
    goesOn caller fs₁ text c₁ = goesOn caller fs₂ text c₂ := by
  rw [goesOn, goesOn, hc.isDirectory, hc.first, hc.second, ← Path.along_concat, ← Path.along_concat,
    stands_twins h hshort htexts (by simp)]

/-- Where a search goes on with a literal component, something stands there. -/
theorem exists_of_goesOn (h : Paired caller fs₁ p₁ top₁ fs₂ p₂ top₂) {text : List Char}
    (v : Visit fs₁ top₁ room texts pattern) (hc : c₁.path = p₁.along texts)
    (hshort : Short p₁ p₂ (texts ++ [String.ofList text]))
    (htext : (Component.literal text).Keeps) (hgoes : goesOn caller fs₁ text c₁ = true) :
    ∃ node, fs₁.get? (top₁ ++ trailed (texts ++ [String.ofList text])) = some node := by
  by_cases hdot : text = ['.']
  · obtain ⟨node, hnode⟩ := v.stands
    have hstay : Lookup.named (Lookup.found ['.']) = [] := by decide
    rw [hdot, Lookup.trailed_concat, String.toList_ofList, hstay, List.append_nil]
    exact ⟨node, hnode⟩
  · rw [goesOn, if_neg (by simp [hdot, htext.2]), hc, ← Path.along_concat] at hgoes
    exact exists_of_stands h hshort (leadsDown_concat v.leadsDown htext) (by simp) hgoes

/-- An entry of a directory that both searches list. -/
theorem sameCandidate_entry (hc : SameCandidate p₁ p₂ texts c₁ c₂) {name : String} {node node' : Node}
    (hkind : node.kind = node'.kind) (hlink : node.kind ≠ .link) :
    SameCandidate p₁ p₂ (texts ++ [name]) (.ofEntry caller fs₁ c₁.path name node)
      (.ofEntry caller fs₂ c₂.path name node') where
  first := by rw [Candidate.path_ofEntry, hc.first, Path.along_concat]
  second := by rw [Candidate.path_ofEntry, hc.second, Path.along_concat]
  isDirectory := by
    rw [Candidate.ofEntry, Candidate.ofEntry, ← hkind]
    cases hnode : node.kind with
    | directory | file => rfl
    | link => exact absurd hnode hlink

/-- Searches of so many steps find the same behind both paths, wherever they go on by the same texts. -/
def SearchesAlike (caller : Caller) (fs₁ : FileSystem) (p₁ : Path) (top₁ : Location) (fs₂ : FileSystem)
    (p₂ : Path) (room : Nat) (directoriesOnly : Bool) (steps : Nat) : Prop :=
  ∀ pattern texts c₁ c₂, (∀ component ∈ pattern, component.Keeps) →
    Visit fs₁ top₁ room texts pattern → SameCandidate p₁ p₂ texts c₁ c₂ →
      SameFound p₁ p₂ (search caller fs₁ directoriesOnly steps pattern c₁)
        (search caller fs₂ directoriesOnly steps pattern c₂)

namespace SearchesAlike

variable {directoriesOnly : Bool} {steps : Nat}
  (alike : SearchesAlike caller fs₁ p₁ top₁ fs₂ p₂ room directoriesOnly steps)

include alike

/-- Two searches find the same through an entry, if shorter searches do. -/
theorem entry {first : Component} (hpattern : ∀ component ∈ first :: rest, component.Keeps)
    (v : Visit fs₁ top₁ room texts (first :: rest)) (hc : SameCandidate p₁ p₂ texts c₁ c₂)
    {name : String} {node node' : Node} (hname : Path.IsName name)
    (hnode : fs₁.get? (top₁ ++ trailed texts ++ [name]) = some node)
    (hkind : node.kind = node'.kind) (hlink : node.kind ≠ .link) :
    SameFound p₁ p₂ (searchEntry caller fs₁ directoriesOnly steps first rest c₁.path (name, node))
      (searchEntry caller fs₂ directoriesOnly steps first rest c₂.path (name, node')) := by
  have hchild : SameCandidate p₁ p₂ (texts ++ [name]) (.ofEntry caller fs₁ c₁.path name node)
      (.ofEntry caller fs₂ c₂.path name node') := sameCandidate_entry hc hkind hlink
  have hsublist := own_sublist first rest
  have hown : ∀ component ∈ own first rest, component.Keeps := fun component hmem =>
    hpattern component (hsublist.mem hmem)
  refine SameFound.append ?_ ?_
  · cases hcase : own first rest with
    | nil =>
        have htexts := (v.entry hname hnode (Nat.le_refl _)).leadsDown
        simp only [searchOwn, hchild.isDirectory, hchild.first, hchild.second]
        split
        · exact .found [texts ++ [name]] (by simpa using htexts)
        · exact .nothing
    | cons component others =>
        have hothers : others.Sublist (first :: rest) :=
          (List.sublist_cons_self component others).trans (hcase ▸ hsublist)
        simp only [searchOwn]
        split
        · exact alike others _ _ _ (fun other hmem => hpattern other (hothers.mem hmem))
            (v.entry hname hnode (weights_le_of_sublist hothers)) hchild
        · exact .nothing
  · rw [searchDeeper, searchDeeper, hchild.isDirectory]
    split
    · refine alike _ _ _ _ ?_ (v.entry hname hnode ?_) hchild
      · intro component hmem
        rcases List.mem_cons.1 hmem with rfl | hmem
        · exact Component.stays_of_beginsWithDot rfl
        · exact hown component hmem
      · have hzero : Component.directories.weight = 0 := rfl
        rw [weights_cons, hzero, Nat.zero_add]
        exact weights_le_of_sublist hsublist
    · exact .nothing

/-- One step more for a literal component. -/
theorem literal (h : Paired caller fs₁ p₁ top₁ fs₂ p₂ top₂) (hfits : Fits fs₁ top₁ room p₁ p₂)
    {text : List Char} (hpattern : ∀ component ∈ Component.literal text :: rest, component.Keeps)
    (v : Visit fs₁ top₁ room texts (.literal text :: rest)) (hc : SameCandidate p₁ p₂ texts c₁ c₂) :
    SameFound p₁ p₂ (search caller fs₁ directoriesOnly (steps + 1) (.literal text :: rest) c₁)
      (search caller fs₂ directoriesOnly (steps + 1) (.literal text :: rest) c₂) := by
  have htext := hpattern _ List.mem_cons_self
  have hshort := v.short_literal hfits
  have htexts := leadsDown_concat v.leadsDown htext
  rw [search_literal, search_literal, goesOn_twins h hc hshort htexts]
  split
  · next hgoes =>
      rw [← goesOn_twins h hc hshort htexts] at hgoes
      have hstands := exists_of_goesOn h v hc.first hshort htext hgoes
      exact alike _ _ _ _ (fun component hmem => hpattern component (List.mem_cons_of_mem _ hmem))
        (v.literal htext hstands) (hc.next h hshort htexts)
  · exact .nothing

/-- One step more for a component that is matched against the entries of a directory. -/
theorem listing (h : Paired caller fs₁ p₁ top₁ fs₂ p₂ top₂) (wf : fs₁.WellFormed)
    (hfits : Fits fs₁ top₁ room p₁ p₂) {first : Component} (hfirst : ∀ text, first ≠ .literal text)
    (hpattern : ∀ component ∈ first :: rest, component.Keeps)
    (v : Visit fs₁ top₁ room texts (first :: rest)) (hc : SameCandidate p₁ p₂ texts c₁ c₂) :
    SameFound p₁ p₂ (search caller fs₁ directoriesOnly (steps + 1) (first :: rest) c₁)
      (search caller fs₂ directoriesOnly (steps + 1) (first :: rest) c₂) := by
  have hstays : first.Stays := by
    have hkeeps := hpattern first List.mem_cons_self
    cases first with
    | literal text => exact absurd rfl (hfirst text)
    | directories | wild => exact hkeeps
  rw [search_succ hfirst hstays, search_succ hfirst hstays, hc.isDirectory]
  split
  · exact .nothing
  · have hread := h.readDirectory_twins (v.short hfits) v.leadsDown
    rw [← hc.first, ← hc.second] at hread
    rcases hread.error_or_ok with ⟨e, he, he'⟩ | ⟨a, b, ha, hb, rfl, rfl⟩
    · rw [he, he', hc.first, hc.second]
      exact .unlisted texts v.leadsDown e
    · rw [ha, hb]
      refine SameFound.flatten_mapM (h.twins.forall₂_children _) ?_
      rintro ⟨name, node⟩ hentry ⟨name', node'⟩ ⟨rfl, hguise⟩
      have hnode := FileSystem.mem_children.1 hentry
      have hname := wf.isName _ _ hnode name (by simp)
      have hlink := h.twins.plain (trailed texts ++ [name]) node (by rwa [← List.append_assoc])
      exact alike.entry hpattern v hc hname hnode (Prod.mk.inj hguise).1 hlink

end SearchesAlike

/-- Two searches find the same behind both paths. -/
theorem searchesAlike (h : Paired caller fs₁ p₁ top₁ fs₂ p₂ top₂) (wf : fs₁.WellFormed)
    (hfits : Fits fs₁ top₁ room p₁ p₂) (directoriesOnly : Bool) (steps : Nat) :
    SearchesAlike caller fs₁ p₁ top₁ fs₂ p₂ room directoriesOnly steps := by
  induction steps with
  | zero =>
      intro pattern texts c₁ c₂ _ _ _
      rw [search.eq_def, search.eq_def]
      exact .nothing
  | succ steps ih =>
      intro pattern texts c₁ c₂ hpattern v hc
      cases pattern with
      | nil =>
          rw [search.eq_def, search.eq_def]
          simp only [hc.isDirectory, hc.first, hc.second]
          split
          · exact .nothing
          · exact .found [texts] (by simpa using v.leadsDown)
      | cons first rest =>
          cases first with
          | literal text => exact ih.literal h hfits hpattern v hc
          | directories => exact ih.listing h wf hfits (by simp) hpattern v hc
          | wild tokens => exact ih.listing h wf hfits (by simp) hpattern v hc

end Searches

/-! ## The order of paths behind another one -/

/-- A component is in order with itself. -/
theorem compare_self (c : Path.Component) : c.compare c = .eq := by
  cases c with
  | root | current | parent => rfl
  | normal name => exact (Std.ReflCmp.compare_self : compare name name = .eq)

/-- Components behind the same ones are compared like these. -/
theorem compareComponents_append (front as bs : List Path.Component) :
    Path.compareComponents (front ++ as) (front ++ bs) = Path.compareComponents as bs := by
  induction front with
  | nil => rfl
  | cons c front ih =>
      rw [List.cons_append, List.cons_append, Path.compareComponents, compare_self, ih]
      rfl

/-- Whether names come no later than others, whatever they are behind. -/
def precedes (names others : Location) : Bool :=
  Path.compareComponents (names.map .normal) (others.map .normal) != .gt

/-- Paths that are behind another one by names come in the order of these names. -/
theorem precedes_of_behind {p q q' : Path} {names others : Location} (h : Behind p names q)
    (h' : Behind p others q') : q.precedes q' = precedes names others := by
  rw [Path.precedes, h, h', compareComponents_append]
  rfl

/-- Paths behind another one are sorted by what is behind it. -/
theorem sort_map_along {p : Path} {ends : List (List String)} (habsolute : p.isAbsolute = true)
    (hp : p.text ≠ "") (hends : ∀ texts ∈ ends, ∀ t ∈ texts, LeadsDown t) :
    Path.sort (ends.map p.along) =
      (ends.mergeSort fun a b => precedes (trailed a) (trailed b)).map p.along := by
  rw [Path.sort, List.map_mergeSort]
  intro a ha b hb
  exact (precedes_of_behind (Lookup.behind_trailed habsolute hp (hends a ha))
    (Lookup.behind_trailed habsolute hp (hends b hb))).symm

/-- What is found behind two paths comes in the same order. -/
theorem SameFound.sort {x₁ x₂ : Except ListError (List Path)} (h : SameFound p₁ p₂ x₁ x₂)
    (h₁ : p₁.isAbsolute = true) (hp₁ : p₁.text ≠ "") (h₂ : p₂.isAbsolute = true) (hp₂ : p₂.text ≠ "") :
    SameFound p₁ p₂ (x₁.map Path.sort) (x₂.map Path.sort) := by
  cases h with
  | unlisted texts htexts cause => exact .unlisted texts htexts cause
  | found ends hends =>
      rw [Except.map, Except.map, sort_map_along h₁ hp₁ hends, sort_map_along h₂ hp₂ hends]
      exact .found _ fun texts htexts => hends texts ((List.mergeSort_perm ends _).mem_iff.1 htexts)

/-! ## The components of a pattern -/

/-- Where a component fits a dot, it fits two dots as well. -/
theorem fits_parent_of_fits_current {tokens : List Token} (h : tokens ≠ [])
    (hfits : Token.fits (.char '.' :: tokens) ['.'] = true) :
    Token.fits (.char '.' :: tokens) ['.', '.'] = true := by
  cases tokens with
  | nil => exact absurd rfl h
  | cons token tokens =>
      cases token with
      | anyRun =>
          simp only [Token.fits, beq_self_eq_true, Bool.true_and] at hfits ⊢
          simp [hfits]
      | char | anyChar | oneOf | noneOf => simp [Token.fits] at hfits

/-- A pattern that does not lead up: where a component of it begins with a dot and has wildcards, it does
not fit two dots. -/
structure Keeps (pattern : String) : Prop where
  leadsDown : LeadsDown pattern
  parent : ∀ piece ∈ Text.splitWhen (· == '/') pattern.toList, ∀ component,
    Component.read piece = .ok component → component.beginsWithDot = true →
      component.fits ['.', '.'] = false

/-- A component with wildcards is not a single character. -/
theorem Component.ne_nil_of_read_wild {piece : List Char} {c : Char} {tokens : List Token}
    (h : read piece = .ok (wild (.char c :: tokens))) : tokens ≠ [] := by
  rintro rfl
  exact absurd (of_read_wild h).2 (by simp [Token.literal?])

/-- The components of a pattern that does not lead up do not lead up. -/
theorem Keeps.component {pattern : String} (h : Keeps pattern) {own : List Component}
    (hown : ∀ component ∈ own, ∃ piece ∈ Text.splitWhen (· == '/') pattern.toList,
      Component.read piece = .ok component) : ∀ component ∈ own, component.Keeps := by
  intro component hcomponent
  obtain ⟨piece, hpiece, hread⟩ := hown component hcomponent
  cases component with
  | literal text =>
      obtain rfl := Component.eq_of_read_literal hread
      refine ⟨Path.not_mem_of_mem_splitWhen hpiece, ?_⟩
      rintro rfl
      exact h.leadsDown.up_notMem_found (List.mem_filterMap.2 ⟨_, hpiece, rfl⟩)
  | directories => exact Component.stays_of_beginsWithDot rfl
  | wild tokens =>
      intro hdot
      have hparent := h.parent piece hpiece _ hread hdot
      refine ⟨hparent, Bool.eq_false_iff.2 fun hcurrent => ?_⟩
      obtain ⟨rest, rfl⟩ := Component.exists_of_beginsWithDot hdot
      have hmore := fits_parent_of_fits_current (Component.ne_nil_of_read_wild hread) hcurrent
      exact absurd hmore (Bool.eq_false_iff.1 hparent)

/-- A component weighs no more than the piece that it is read from. -/
theorem Component.weight_le_of_read {piece : List Char} {component : Component}
    (h : read piece = .ok component) : component.weight ≤ span [String.ofList piece] := by
  cases component with
  | literal text => rw [eq_of_read_literal h, weight]
  | directories | wild => exact Nat.zero_le _

/-- Components weigh no more than the pieces that they are read from. -/
theorem weights_le_of_forall₂ {pieces : List (List Char)} {own : List Component}
    (h : List.Forall₂ (fun piece component => Component.read piece = .ok component) pieces own) :
    weights own ≤ span (pieces.map String.ofList) := by
  induction h with
  | nil => exact Nat.le_refl 0
  | @cons piece component pieces own hread _ ih =>
      have hweight := Component.weight_le_of_read hread
      have hsplit := span_append [String.ofList piece] (pieces.map String.ofList)
      rw [weights_cons, List.map_cons, ← List.singleton_append, hsplit]
      exact Nat.add_le_add hweight ih

/-- The components of a pattern are no heavier than the pattern is long. -/
theorem weights_le_of_read {pattern : List Char} {own : List Component}
    (h : (ownPieces pattern).mapM Component.read = .ok own) :
    weights own ≤ (String.ofList pattern).utf8ByteSize + 1 := by
  have hspan := weights_le_of_forall₂ (FileSystem.forall₂_of_mapM h)
  have hpieces : span ((ownPieces pattern).map String.ofList) ≤
      span ((Text.splitWhen (· == '/') pattern).map String.ofList) := by
    rw [ownPieces]
    split
    · have hcut := List.dropLast_append_getLast (Text.splitWhen_ne_nil (· == '/') pattern)
      conv_rhs => rw [← hcut, List.map_append, span_append]
      exact Nat.le_add_right _ _
    · exact Nat.le_refl _
  have hsizes := sizes_splitWhen pattern
  simp only [span, List.length_map] at hspan hpieces
  omega

/-! ## Two roots -/

/-- An absolute root leads to a directory, and what has to be listed on the way may be listed. -/
structure Rooted (caller : Caller) (fs : FileSystem) (root : Path) (top : Location) : Prop where
  wellFormed : fs.WellFormed
  reaches : Reaches caller fs root top
  readable : Readable caller fs root

/-- Two expansions of a pattern agree: they give the paths by the same names behind both roots, in the
same order, or they fail with the same kind of error, at the same place of the pattern or behind both
roots by the same names. -/
inductive Agree (r₁ r₂ : Path) : Except Error (List Path) → Except Error (List Path) → Prop
  | found (names : List Location) {found₁ found₂ : List Path}
    (h₁ : List.Forall₂ (Behind r₁) names found₁) (h₂ : List.Forall₂ (Behind r₂) names found₂) :
    Agree r₁ r₂ (.ok found₁) (.ok found₂)
  | whole (k₁ k₂ position : Nat) (defect : Defect) :
    Agree r₁ r₂ (.error (.unreadable (.whole k₁ ⟨position + k₁, defect⟩)))
      (.error (.unreadable (.whole k₂ ⟨position + k₂, defect⟩)))
  | component (error : PatternError) :
    Agree r₁ r₂ (.error (.unreadable (.component error))) (.error (.unreadable (.component error)))
  | unlisted (names : Location) (cause : FileError) {p₁ p₂ : Path} (h₁ : Behind r₁ names p₁)
    (h₂ : Behind r₂ names p₂) :
    Agree r₁ r₂ (.error (.unlisted ⟨p₁, cause⟩)) (.error (.unlisted ⟨p₂, cause⟩))

section Agree

variable {r₁ r₂ : Path} {pattern : String}

/-- Names make a path longer by no more than what they are with slashes between them, and one slash.
-/
theorem span_le_size_slashed (names : List String) :
    span names ≤ (Path.slashed names).utf8ByteSize + 1 := by
  induction names with
  | nil => exact Nat.zero_le _
  | cons name names ih =>
      have hsplit := span_append [name] names
      rw [span_singleton] at hsplit
      rw [← List.singleton_append, hsplit]
      by_cases hnil : names = []
      · subst hnil
        rw [List.append_nil, Path.slashed_singleton]
        exact Nat.le_refl _
      · have hslash : "/".utf8ByteSize = 1 := by decide
        rw [List.singleton_append, Path.slashed_cons name hnil, String.utf8ByteSize_append,
          String.utf8ByteSize_append, hslash]
        omega

/-- Texts that lead down from a root lead to paths behind it, by the names that they lead to. -/
theorem behind_root {root : Path} (h : root.isAbsolute = true) {texts : List String}
    (htexts : ∀ t ∈ texts, LeadsDown t) :
    Behind root (trailed texts) ((alongRoot root).along texts) := by
  rw [Behind, ← components_alongRoot h]
  exact Lookup.behind_trailed (isAbsolute_alongRoot root) (text_alongRoot root) htexts

/-- What is found behind the segments of two roots agrees. -/
theorem SameFound.agree {x₁ x₂ : Except ListError (List Path)}
    (h : SameFound (alongRoot r₁) (alongRoot r₂) x₁ x₂) (h₁ : r₁.isAbsolute = true)
    (h₂ : r₂.isAbsolute = true) : Agree r₁ r₂ (x₁.mapError .unlisted) (x₂.mapError .unlisted) := by
  cases h with
  | unlisted texts htexts cause =>
      exact .unlisted (trailed texts) cause (behind_root h₁ htexts) (behind_root h₂ htexts)
  | found ends hends =>
      refine .found (ends.map trailed) ?_ ?_
      · rw [List.forall₂_map_left_iff, List.forall₂_map_right_iff, List.forall₂_same]
        exact fun texts htexts => behind_root h₁ (hends texts htexts)
      · rw [List.forall₂_map_left_iff, List.forall₂_map_right_iff, List.forall₂_same]
        exact fun texts htexts => behind_root h₂ (hends texts htexts)

/-- No path becomes too long that begins with a root and has the way to a node below a location and a
pattern behind it. -/
def Roomy (fs : FileSystem) (top : Location) (roots : List Path) (pattern : String) : Prop :=
  ∀ names node, fs.get? (top ++ names) = some node → ∀ root ∈ roots,
    root.text.utf8ByteSize + (Path.slashed names).utf8ByteSize + pattern.utf8ByteSize + 2 <
      Lookup.maxPath

/-- The directory that a root reaches is there. -/
theorem get?_append_nil (h : Reaches caller fs₁ r₁ top₁) : ∃ node, fs₁.get? (top₁ ++ []) = some node := by
  obtain ⟨node, hfind, -⟩ := h.leads
  exact ⟨node, (List.append_nil top₁).symm ▸ Lookup.get?_of_find hfind⟩

/-- No path that a search looks at is too long. -/
theorem fits_alongRoot {own : List Component} (h₁ : Reaches caller fs₁ r₁ top₁)
    (h₂ : Reaches caller fs₂ r₂ top₂) (hown : (ownPieces pattern.toList).mapM Component.read = .ok own)
    (hroom : Roomy fs₁ top₁ [r₁, r₂] pattern) :
    Fits fs₁ top₁ (weights own) (alongRoot r₁) (alongRoot r₂) := by
  intro names node hnode
  have hspan := span_le_size_slashed names
  have hweights := weights_le_of_read hown
  have hsize₁ := size_alongRoot_le h₁.absolute
  have hsize₂ := size_alongRoot_le h₂.absolute
  have hfirst := hroom names node hnode r₁ (by simp)
  have hsecond := hroom names node hnode r₂ (by simp)
  rw [String.ofList_toList] at hweights
  constructor <;> omega

/-- The searches for the components of a pattern find the same behind both roots. -/
theorem sameFound_own {own : List Component} (wf : fs₁.WellFormed) (h₁ : Reaches caller fs₁ r₁ top₁)
    (h₂ : Reaches caller fs₂ r₂ top₂) (twins : Twins fs₁ top₁ fs₂ top₂) (hpattern : Keeps pattern)
    (hroom : Roomy fs₁ top₁ [r₁, r₂] pattern)
    (hown : (ownPieces pattern.toList).mapM Component.read = .ok own) (directoriesOnly : Bool) :
    SameFound (alongRoot r₁) (alongRoot r₂)
      (search caller fs₁ directoriesOnly (own.length + Lookup.maxPath) own
        (.ofPath caller fs₁ (alongRoot r₁)))
      (search caller fs₂ directoriesOnly (own.length + Lookup.maxPath) own
        (.ofPath caller fs₂ (alongRoot r₂))) := by
  have hpaired : Paired caller fs₁ (alongRoot r₁) top₁ fs₂ (alongRoot r₂) top₂ :=
    ⟨twins, reaches_alongRoot h₁, reaches_alongRoot h₂⟩
  have hfits := fits_alongRoot h₁ h₂ hown hroom
  have v : Visit fs₁ top₁ (weights own) [] own := ⟨by simp, get?_append_nil h₁, Nat.le_refl _⟩
  exact searchesAlike hpaired wf hfits directoriesOnly _ own [] _ _
    (hpattern.component (exists_piece_of_mapM hown)) v (sameCandidate_start hpaired (v.short hfits))

/-- A pattern without wildcards stands for a path behind both roots, or for none. -/
theorem agree_expand_plain (h₁ : Reaches caller fs₁ r₁ top₁) (h₂ : Reaches caller fs₂ r₂ top₂)
    (twins : Twins fs₁ top₁ fs₂ top₂) (hdown : LeadsDown pattern)
    (hroom : Roomy fs₁ top₁ [r₁, r₂] pattern) (hwild : ¬ hasWildcards pattern = true) :
    Agree r₁ r₂ (expand caller fs₁ r₁ pattern) (expand caller fs₂ r₂ pattern) := by
  have htexts : ∀ t ∈ [pattern], LeadsDown t := fun t ht => List.mem_singleton.1 ht ▸ hdown
  have hpaired : Paired caller fs₁ r₁ top₁ fs₂ r₂ top₂ := ⟨twins, h₁, h₂⟩
  have hshort : Short r₁ r₂ [pattern] := by
    obtain ⟨node, hnode⟩ := get?_append_nil h₁
    have hfirst := hroom [] node hnode r₁ (by simp)
    have hsecond := hroom [] node hnode r₂ (by simp)
    have hsizes : Path.sizes [pattern] = pattern.utf8ByteSize := by simp [Path.sizes]
    constructor <;> rw [hsizes, List.length_singleton] <;> omega
  have hok := hpaired.isOk_lstat hshort htexts (List.cons_ne_nil _ _)
  rw [Path.along_singleton, Path.along_singleton] at hok
  rw [expand, if_neg hwild, expand, if_neg hwild]
  simp only [hok]
  cases (fs₂.lstat caller (r₂.join ⟨pattern⟩)).isOk with
  | false => exact .found [] .nil .nil
  | true =>
      have hbehind {caller : Caller} {fs : FileSystem} {root : Path} {top : Location}
          (h : Reaches caller fs root top) : Behind root (trailed [pattern]) (root.join ⟨pattern⟩) :=
        Path.along_singleton root pattern ▸ Lookup.behind_trailed h.absolute h.text_ne htexts
      exact .found [trailed [pattern]] (.cons (hbehind h₁) .nil) (.cons (hbehind h₂) .nil)

/-- A pattern that does not lead up stands for the same paths behind two roots that lead to trees that
look the same, whatever the roots are called, or it fails for the same reason. -/
theorem agree_expand (h₁ : Rooted caller fs₁ r₁ top₁) (h₂ : Rooted caller fs₂ r₂ top₂)
    (twins : Twins fs₁ top₁ fs₂ top₂) (hpattern : Keeps pattern)
    (hroom : Roomy fs₁ top₁ [r₁, r₂] pattern) :
    Agree r₁ r₂ (expand caller fs₁ r₁ pattern) (expand caller fs₂ r₂ pattern) := by
  by_cases hwild : hasWildcards pattern = true
  · cases hcheck : check pattern.toList with
    | error e =>
        rw [expand_of_check_error h₁.reaches hwild hcheck, expand_of_check_error h₂.reaches hwild hcheck]
        exact .whole _ _ e.position e.defect
    | ok _ =>
        cases hown : (ownPieces pattern.toList).mapM Component.read with
        | error e =>
            rw [expand_of_read_error h₁.reaches hwild hcheck hown,
              expand_of_read_error h₂.reaches hwild hcheck hown]
            exact .component e
        | ok own =>
            have hsame := sameFound_own h₁.wellFormed h₁.reaches h₂.reaches twins hpattern hroom hown
              (pattern.toList.getLast? == some '/')
            have hsorted := hsame.sort (isAbsolute_alongRoot r₁) (text_alongRoot r₁)
              (isAbsolute_alongRoot r₂) (text_alongRoot r₂)
            rw [expand_eq_search h₁.reaches h₁.readable hwild hcheck hown,
              expand_eq_search h₂.reaches h₂.readable hwild hcheck hown]
            exact hsorted.agree h₁.reaches.absolute h₂.reaches.absolute
  · exact agree_expand_plain h₁.reaches h₂.reaches twins hpattern.leadsDown hroom hwild

end Agree

/-- Two directories with a file of the same name.  The name of one of them has a star in it, and a
directory beside it fits that name. -/
def twoRoots : FileSystem :=
  .ofNodes [
    (["d", "b", "x"], .file Mode.file 0 [2]),
    (["d", "b"], .directory Mode.directory 0),
    (["d"], .directory Mode.directory 0),
    (["ab", "y"], .file Mode.file 0 []),
    (["ab"], .directory Mode.directory 0),
    (["a*", "x"], .file Mode.file 0 [1]),
    (["a*"], .directory Mode.directory 0)]

/-- Every directory of the tree with two roots may be listed. -/
theorem readable_twoRoots (root : Path) : Readable .userAtRoot twoRoots root := by
  have hread : ∀ l node, twoRoots.get? l = some node → Caller.userAtRoot.may .read node = true :=
    FileSystem.forall_ofNodes (by decide) (by decide)
  exact fun above name l node _ _ hfind => hread l node (Lookup.get?_of_find hfind)

/-- Both roots lead to their directories. -/
theorem rooted_twoRoots : Rooted .userAtRoot twoRoots ⟨"/a*"⟩ ["a*"] ∧
    Rooted .userAtRoot twoRoots ⟨"/d/b"⟩ ["d", "b"] := by
  have wf : twoRoots.WellFormed := FileSystem.wellFormed_ofNodes (by decide)
  have hfirst : Lookup.find .userAtRoot twoRoots true ⟨"/a*"⟩ =
      .ok (["a*"], .directory Mode.directory 0) := by
    decide +kernel
  have hsecond : Lookup.find .userAtRoot twoRoots true ⟨"/d/b"⟩ =
      .ok (["d", "b"], .directory Mode.directory 0) := by
    decide +kernel
  exact ⟨⟨wf, ⟨by decide, _, hfirst, rfl⟩, readable_twoRoots _⟩,
    ⟨wf, ⟨by decide, _, hsecond, rfl⟩, readable_twoRoots _⟩⟩

/-- Both directories look the same. -/
theorem twins_twoRoots : Twins twoRoots ["a*"] twoRoots ["d", "b"] where
  same := by
    have hthere : ∀ l node, twoRoots.get? l = some node → ["a*"] <+: l →
        (twoRoots.get? (["d", "b"] ++ l.drop 1)).map Node.guise = some node.guise :=
      FileSystem.forall_ofNodes (by decide) (by decide +kernel)
    have hback : ∀ l node, twoRoots.get? l = some node → ["d", "b"] <+: l →
        (twoRoots.get? (["a*"] ++ l.drop 2)).map Node.guise = some node.guise :=
      FileSystem.forall_ofNodes (by decide) (by decide +kernel)
    intro names
    cases hfirst : twoRoots.get? (["a*"] ++ names) with
    | some node => exact (hthere _ node hfirst (List.prefix_append _ _)).symm
    | none =>
        cases hsecond : twoRoots.get? (["d", "b"] ++ names) with
        | none => rfl
        | some node =>
            have hnode : (twoRoots.get? (["a*"] ++ names)).map Node.guise = some node.guise :=
              hback _ node hsecond (List.prefix_append _ _)
            rw [hfirst] at hnode
            cases hnode
  plain names :=
    FileSystem.forall_ofNodes (P := fun _ node => node.kind ≠ .link) (by decide) (by decide) _

/-- The root with the star stands for itself. -/
theorem agree_expand_star :
    expand .userAtRoot twoRoots ⟨"/a*"⟩ "*" = .ok [⟨"/a*/x"⟩] ∧
    Agree ⟨"/a*"⟩ ⟨"/d/b"⟩ (expand .userAtRoot twoRoots ⟨"/a*"⟩ "*")
      (expand .userAtRoot twoRoots ⟨"/d/b"⟩ "*") := by
  have hpattern : Keeps "*" := by
    refine ⟨by decide, fun piece hpiece component hread hdot => ?_⟩
    obtain rfl : piece = ['*'] := List.mem_singleton.1 hpiece
    have hstar : Component.read ['*'] = .ok (.wild [.anyRun]) := by decide +kernel
    obtain rfl := Except.ok.inj (hstar.symm.trans hread)
    exact absurd hdot (by decide)
  have hroom : ∀ l node, twoRoots.get? l = some node → ∀ root ∈ [(⟨"/a*"⟩ : Path), ⟨"/d/b"⟩],
      root.text.utf8ByteSize + (Path.slashed (l.drop 1)).utf8ByteSize + "*".utf8ByteSize + 2 <
        Lookup.maxPath :=
    FileSystem.forall_ofNodes (by decide +kernel) (by decide +kernel)
  exact ⟨by decide +kernel, agree_expand rooted_twoRoots.1 rooted_twoRoots.2 twins_twoRoots hpattern
    fun names => hroom (["a*"] ++ names)⟩

/-- A component that begins with a dot and has wildcards leads up.  Then something beside a root is found,
and what stands beside the other root is not the same. -/
theorem expand_leads_up :
    expand .userAtRoot twoRoots ⟨"/a*"⟩ ".*/ab" = .ok [⟨"/a*/../ab"⟩] ∧
    expand .userAtRoot twoRoots ⟨"/d/b"⟩ ".*/ab" = .ok [] ∧
    ¬ ∃ names, Behind ⟨"/a*"⟩ names ⟨"/a*/../ab"⟩ := by
  refine ⟨by decide +kernel, by decide +kernel, ?_⟩
  rintro ⟨names, hnames⟩
  have hparent : Path.Component.parent ∈ (⟨"/a*/../ab"⟩ : Path).components := by decide
  rw [hnames] at hparent
  rcases List.mem_append.1 hparent with hparent | hparent
  · exact absurd hparent (by decide)
  · simp at hparent

/-- A text with slashes behind it. -/
def slashedBy (n : Nat) (text : String) : String :=
  text ++ String.ofList (List.replicate n '/')

/-- A slash takes up one byte. -/
theorem size_slashedBy (n : Nat) (text : String) :
    (slashedBy n text).utf8ByteSize = text.utf8ByteSize + n := by
  have hslash : '/'.utf8Size = 1 := by decide
  have hsize : (String.ofList (List.replicate n '/')).utf8ByteSize = n := by
    induction n with
    | zero => rfl
    | succ n ih => rw [List.replicate_succ, size_ofList_cons, ih, hslash, Nat.add_comm]
  rw [slashedBy, String.utf8ByteSize_append, hsize]

/-- Slashes at the end of a text ask for no steps. -/
theorem found_slashes (n : Nat) (cs : List Char) : found (cs ++ List.replicate n '/') = found cs := by
  induction n with
  | zero => rw [List.replicate_zero, List.append_nil]
  | succ n ih =>
      have hnil : found [] = [] := rfl
      rw [List.replicate_succ', ← List.append_assoc, Lookup.found_append, hnil, List.append_nil, ih]

/-- Slashes behind a path to a directory change nothing, unless the path becomes too long. -/
theorem reaches_slashedBy {caller : Caller} {fs : FileSystem} {root : Path} {top : Location} {n : Nat}
    (h : Reaches caller fs root top) (hn : root.text.utf8ByteSize + n < Lookup.maxPath) :
    Reaches caller fs ⟨slashedBy n root.text⟩ top := by
  obtain ⟨node, hkind, -, hwalk⟩ := h.walk_found
  obtain ⟨hnul, hne, -⟩ := Lookup.checkText_eq_ok_iff.1 h.checkText
  have hchars : (slashedBy n root.text).toList = root.text.toList ++ List.replicate n '/' := by
    rw [slashedBy, String.toList_append, String.toList_ofList]
  refine Lookup.reaches_of_walk ?_ (Lookup.checkText_eq_ok_iff.2 ⟨?_, ?_, ?_⟩) hkind ?_
  · have habsolute := h.absolute
    rw [Path.isAbsolute] at habsolute ⊢
    rw [hchars, List.head?_append_of_ne_nil _ fun hnil => hne (String.toList_eq_nil_iff.1 hnil)]
    exact habsolute
  · rw [hchars, List.mem_append, not_or]
    exact ⟨hnul, fun hmem => absurd (List.eq_of_mem_replicate hmem) (by decide)⟩
  · intro hempty
    exact hne (String.append_eq_empty_iff.1 hempty).1
  · rwa [size_slashedBy]
  · rwa [hchars, found_slashes]

/-- Nothing is found at a path that is too long. -/
theorem expand_of_long {caller : Caller} {fs : FileSystem} {root : Path} {pattern : String}
    (hwild : ¬ hasWildcards pattern = true)
    (hlong : Lookup.maxPath ≤ (root.join ⟨pattern⟩).text.utf8ByteSize) :
    expand caller fs root pattern = .ok [] := by
  have hlstat : (fs.lstat caller (root.join ⟨pattern⟩)).isOk = false := by
    cases hlstat : fs.lstat caller (root.join ⟨pattern⟩) with
    | error e => rfl
    | ok node =>
        obtain ⟨l, hfind⟩ := Lookup.lstat_eq_ok_iff.1 hlstat
        have htext := (Lookup.checkText_eq_ok_iff.1 (Lookup.find_eq_ok_iff.1 hfind).1).2.2
        exact absurd htext (Nat.not_lt.2 hlong)
  rw [expand, if_neg hwild]
  simp only [hlstat]
  rfl

/-- What is found depends on the root where a component leads up, and where the root leaves no room. -/
theorem expand_depends_on_root :
    Rooted .userAtRoot twoRoots ⟨"/a*"⟩ ["a*"] ∧ Twins twoRoots ["a*"] twoRoots ["d", "b"] ∧
    (Rooted .userAtRoot twoRoots ⟨"/d/b"⟩ ["d", "b"] ∧ LeadsDown ".*/ab" ∧
      (¬ ∃ names, Behind ⟨"/a*"⟩ names ⟨"/a*/../ab"⟩) ∧
      expand .userAtRoot twoRoots ⟨"/a*"⟩ ".*/ab" = .ok [⟨"/a*/../ab"⟩] ∧
      ¬ Agree ⟨"/a*"⟩ ⟨"/d/b"⟩ (expand .userAtRoot twoRoots ⟨"/a*"⟩ ".*/ab")
        (expand .userAtRoot twoRoots ⟨"/d/b"⟩ ".*/ab")) ∧
    (Rooted .userAtRoot twoRoots ⟨slashedBy 4091 "/d/b"⟩ ["d", "b"] ∧ LeadsDown "x" ∧
      ¬ Agree ⟨"/a*"⟩ ⟨slashedBy 4091 "/d/b"⟩ (expand .userAtRoot twoRoots ⟨"/a*"⟩ "x")
        (expand .userAtRoot twoRoots ⟨slashedBy 4091 "/d/b"⟩ "x")) := by
  obtain ⟨hfirst, hsecond, hup⟩ := expand_leads_up
  have hnot {p : Path} {r₁ r₂ : Path} : ¬ Agree r₁ r₂ (.ok [p]) (.ok []) := by
    rintro ⟨_ | _, h₁, h₂⟩
    · cases h₁
    · cases h₂
  have hshort : expand .userAtRoot twoRoots ⟨"/a*"⟩ "x" = .ok [⟨"/a*/x"⟩] := by decide +kernel
  -- the number of slashes stays a variable, so that no step unfolds a text of this length
  have hslashes (n : Nat) (hn : n = 4091) :
      Rooted .userAtRoot twoRoots ⟨slashedBy n "/d/b"⟩ ["d", "b"] ∧ LeadsDown "x" ∧
        ¬ Agree ⟨"/a*"⟩ ⟨slashedBy n "/d/b"⟩ (expand .userAtRoot twoRoots ⟨"/a*"⟩ "x")
          (expand .userAtRoot twoRoots ⟨slashedBy n "/d/b"⟩ "x") := by
    have hroot : "/d/b".utf8ByteSize = 4 := by decide
    have hname : "x".utf8ByteSize = 1 := by decide
    have hmax : Lookup.maxPath = 4096 := rfl
    have hlong : expand .userAtRoot twoRoots ⟨slashedBy n "/d/b"⟩ "x" = .ok [] := by
      refine expand_of_long (by decide) ?_
      have hjoin := Path.size_join (p := ⟨slashedBy n "/d/b"⟩) (show Path.IsName "x" by decide)
      rw [size_slashedBy] at hjoin
      omega
    refine ⟨⟨rooted_twoRoots.2.wellFormed, ?_, readable_twoRoots _⟩, by decide, ?_⟩
    · exact reaches_slashedBy rooted_twoRoots.2.reaches (by dsimp only; omega)
    · rw [hshort, hlong]
      exact hnot
  refine ⟨rooted_twoRoots.1, twins_twoRoots, ⟨rooted_twoRoots.2, by decide, hup, hfirst, ?_⟩,
    hslashes 4091 rfl⟩
  rw [hfirst, hsecond]
  exact hnot

end RpmRelease.Glob
