import RpmRelease.Glob.Expansion
import RpmRelease.Proofs.FileSystem.Inside

/-!
# What a search looks at

A component descends when it leads to nothing but the entries of the directory where it is looked up: it
is not two dots, and it has no wildcards if it begins with a dot, since such a one may fit two dots.  A
search for components that descend looks at nothing else than the tree where it begins.  So in a file
system that is sheltered there it finds what it has found before.
-/

set_option autoImplicit false

namespace RpmRelease.Glob

open Lookup (Inside Sheltered)

/-! ## Reading a component -/

/-- Whether a character is a wildcard or opens a set. -/
def isWild (c : Char) : Bool :=
  c == '*' || c == '?' || c == '['

/-- A character without special meaning is read as itself. -/
theorem Token.read_plain {c : Char} (hc : isWild c = false) (position : Nat) (boundary : Bool)
    (text : List Char) : read position boundary (c :: text) =
      (.char c :: ·) <$> read (position + 1) (c == '/') text := by
  simp only [isWild, Bool.or_eq_false_iff, beq_eq_false_iff_ne] at hc
  rw [read]
  · exact hc.1.2
  · exact hc.1.1
  · exact hc.2

/-- A text without wildcards is read character by character. -/
theorem Token.read_eq_map {text : List Char} (h : ∀ c ∈ text, isWild c = false) (position : Nat)
    (boundary : Bool) : read position boundary text = .ok (text.map .char) := by
  induction text generalizing position boundary with
  | nil => rw [read, List.map_nil]
  | cons c text ih =>
      rw [read_plain (h c List.mem_cons_self), ih fun d hd => h d (List.mem_cons_of_mem c hd)]
      rfl

/-- A set is never read as a single character. -/
theorem ne_char_of_readSet {text rest : List Char} {token : Token}
    (h : readSet text = some (token, rest)) (c : Char) : token ≠ .char c := by
  unfold readSet at h
  split at h
  split at h
  · cases h
  · split at h
    · cases h
    · obtain ⟨rfl, _⟩ := Prod.mk.inj (Option.some.inj h)
      split <;> simp

/-- A wildcard is not read as a character. -/
theorem Token.ne_char_of_read {c : Char} (hc : isWild c = true) {position : Nat} {boundary : Bool}
    {text : List Char} {tokens : List Token} (h : read position boundary (c :: text) = .ok tokens) :
    ∃ token rest, tokens = token :: rest ∧ ∀ d, token ≠ .char d := by
  have hanyRun : ∀ d, Token.anyRun ≠ .char d := by simp
  simp only [isWild, Bool.or_eq_true, beq_iff_eq] at hc
  rcases hc with (rfl | rfl) | rfl
  · rw [read] at h
    split at h
    · obtain ⟨rest, _, rfl⟩ := Run.of_map_ok h
      exact ⟨_, rest, rfl, hanyRun⟩
    · split at h
      · cases h
      · split at h
        · cases h
          exact ⟨_, [], rfl, hanyRun⟩
        · split at h
          · obtain ⟨rest, _, rfl⟩ := Run.of_map_ok h
            exact ⟨_, rest, rfl, hanyRun⟩
          · cases h
    · cases h
  · rw [read] at h
    obtain ⟨rest, _, rfl⟩ := Run.of_map_ok h
    exact ⟨_, rest, rfl, by simp⟩
  · rw [read] at h
    split at h
    · cases h
    · next token _ hset =>
        obtain ⟨rest, _, rfl⟩ := Run.of_map_ok h
        exact ⟨token, rest, rfl, ne_char_of_readSet hset⟩

/-- Tokens that stand for single characters make up a literal text. -/
theorem Token.literal?_map_char (text : List Char) : literal? (text.map .char) = some text := by
  induction text with
  | nil => rfl
  | cons c text ih =>
      rw [literal?] at ih ⊢
      rw [List.map_cons, List.mapM_cons, ih]
      rfl

/-- Tokens that make up a literal text begin with its first character. -/
theorem Token.of_literal?_cons {token : Token} {tokens : List Token} {text : List Char}
    (h : literal? (token :: tokens) = some text) :
    ∃ c rest, token = .char c ∧ text = c :: rest ∧ literal? tokens = some rest := by
  rw [literal?, List.mapM_cons, ← literal?] at h
  cases token with
  | char c =>
      cases hrest : literal? tokens with
      | none => simp [hrest] at h
      | some rest => exact ⟨c, rest, rfl, by simpa [hrest] using h.symm, rfl⟩
  | _ => simp at h

/-- A text that is read as a literal one is this text. -/
theorem Token.eq_of_literal? {position : Nat} {boundary : Bool} {text other : List Char}
    {tokens : List Token} (hread : read position boundary text = .ok tokens)
    (h : literal? tokens = some other) : other = text := by
  induction text generalizing position boundary tokens other with
  | nil =>
      rw [read] at hread
      cases hread
      exact (Option.some.inj h).symm
  | cons c text ih =>
      cases hc : isWild c with
      | false =>
          rw [read_plain hc] at hread
          obtain ⟨rest, hrest, rfl⟩ := Run.of_map_ok hread
          obtain ⟨d, others, htoken, rfl, hothers⟩ := of_literal?_cons h
          obtain rfl := Token.char.inj htoken
          rw [ih hrest hothers]
      | true =>
          obtain ⟨token, rest, rfl, htoken⟩ := ne_char_of_read hc hread
          obtain ⟨d, _, hchar, _⟩ := of_literal?_cons h
          exact absurd hchar (htoken d)

/-- Only a text that begins with a character is read as tokens that do. -/
theorem Token.head_of_read {position : Nat} {boundary : Bool} {text : List Char} {c : Char}
    {tokens : List Token} (h : read position boundary text = .ok (.char c :: tokens)) :
    text.head? = some c := by
  cases text with
  | nil =>
      rw [read] at h
      cases h
  | cons d text =>
      cases hd : isWild d with
      | false =>
          rw [read_plain hd] at h
          obtain ⟨rest, _, htokens⟩ := Run.of_map_ok h
          rw [List.head?_cons, Token.char.inj (List.cons.inj htokens).1]
      | true =>
          obtain ⟨token, rest, htokens, htoken⟩ := ne_char_of_read hd h
          exact absurd (List.cons.inj htokens).1.symm (htoken c)

/-- A component that does not lead up. -/
def Component.Descends : Component → Prop
  | literal text => '/' ∉ text ∧ text ≠ ['.', '.']
  | component => component.beginsWithDot = false

/-- A piece of a pattern that does not lead up. -/
def PieceDescends (piece : List Char) : Prop :=
  piece ≠ ['.', '.'] ∧ (piece.head? = some '.' → ∀ c ∈ piece, isWild c = false)

/-- A component with wildcards begins with a dot when its first token does. -/
theorem Component.exists_of_beginsWithDot {tokens : List Token}
    (h : beginsWithDot (wild tokens) = true) : ∃ rest, tokens = .char '.' :: rest := by
  unfold beginsWithDot at h
  split at h
  · next rest heq => exact ⟨rest, wild.inj heq⟩
  · cases h

/-- A literal component is the text that it is read from. -/
theorem Component.eq_of_read_literal {piece text : List Char} (h : read piece = .ok (literal text)) :
    text = piece := by
  rw [read] at h
  split at h
  · cases h
  · obtain ⟨tokens, htokens, h⟩ := Run.of_map_ok h
    cases hliteral : Token.literal? tokens with
    | none => simp [hliteral] at h
    | some other =>
        obtain rfl : other = text := by simpa [hliteral] using h
        exact Token.eq_of_literal? htokens hliteral

/-- A component with wildcards is read from tokens that are no literal text. -/
theorem Component.of_read_wild {piece : List Char} {tokens : List Token}
    (h : read piece = .ok (wild tokens)) :
    Token.read 0 true piece = .ok tokens ∧ Token.literal? tokens = none := by
  rw [read] at h
  split at h
  · cases h
  · obtain ⟨others, hothers, h⟩ := Run.of_map_ok h
    cases hliteral : Token.literal? others with
    | some text => simp [hliteral] at h
    | none =>
        obtain rfl : others = tokens := by simpa [hliteral] using h
        exact ⟨hothers, hliteral⟩

/-- What is read from a piece that does not lead up. -/
theorem Component.descends_of_read {piece : List Char} {component : Component}
    (hslash : '/' ∉ piece) (hpiece : PieceDescends piece)
    (h : read piece = .ok component) : component.Descends := by
  cases component with
  | literal text =>
      obtain rfl := eq_of_read_literal h
      exact ⟨hslash, hpiece.1⟩
  | directories => rfl
  | wild tokens =>
      refine Bool.eq_false_iff.2 fun hdot => ?_
      obtain ⟨rest, rfl⟩ := exists_of_beginsWithDot hdot
      obtain ⟨htokens, hliteral⟩ := of_read_wild h
      -- a piece that begins with a dot has no wildcards, and is literal
      rw [Token.read_eq_map (hpiece.2 (Token.head_of_read htokens))] at htokens
      rw [← Except.ok.inj htokens, Token.literal?_map_char] at hliteral
      cases hliteral

/-! ## Searching inside a tree -/

section Search

variable {caller : Caller} {fs fs' : FileSystem} {top : Location} {root path : Path}

/-- A path inside a sheltered root is the same candidate, whatever was added elsewhere. -/
theorem Candidate.ofPath_eq (h : Sheltered caller root top fs fs') (hpath : Inside root path) :
    ofPath caller fs' path = ofPath caller fs path := by
  rw [ofPath, ofPath, FileSystem.isDirectory, h.stat_eq hpath, ← FileSystem.isDirectory]

/-- Something stands at a path when the path leads anywhere, or a link stands there. -/
theorem stands_iff : stands caller fs path = true ↔
    ∃ follow r, Lookup.find caller fs follow path = .ok r := by
  rw [stands, Bool.or_eq_true, FileSystem.reaches, Lookup.isOk_stat_iff, Lookup.isOk_lstat_iff,
    Bool.exists_bool, or_comm]

/-- Whether something stands at a path inside a sheltered root does not depend on what was added
elsewhere. -/
theorem stands_eq (h : Sheltered caller root top fs fs') (hpath : Inside root path) :
    stands caller fs' path = stands caller fs path := by
  rw [stands, stands, FileSystem.reaches, FileSystem.reaches, h.stat_eq hpath, h.lstat_eq hpath]

/-- An entry inside a sheltered root is the same candidate, whatever was added elsewhere. -/
theorem Candidate.ofEntry_eq (h : Sheltered caller root top fs fs') {name : String} {node : Node}
    (hpath : Inside root (path.join ⟨name⟩)) :
    ofEntry caller fs' path name node = ofEntry caller fs path name node := by
  rw [ofEntry, ofEntry, ofPath_eq h hpath]

/-- The path of an entry as a candidate is that of its directory and the name. -/
theorem Candidate.path_ofEntry (path : Path) (name : String) (node : Node) :
    (ofEntry caller fs path name node).path = path.join ⟨name⟩ := by
  rw [ofEntry]
  cases node.kind <;> rfl

/-- The components that the name of an entry itself is matched against. -/
def own (first : Component) (rest : List Component) : List Component :=
  if first == .directories then rest.dropWhile (· == .directories) else first :: rest

section Entries

variable (caller : Caller) (fs : FileSystem) (directoriesOnly : Bool) (steps : Nat)

/-- What a search finds through an entry when its name is matched against the first component. -/
def searchOwn (name : String) (child : Candidate) : List Component → Except ListError (List Path)
  | [] => .ok (if child.isDirectory then [child.path] else [])
  | component :: rest =>
    if component.fits name.toList then search caller fs directoriesOnly steps rest child else .ok []

/-- What a search for any number of directories finds below an entry. -/
def searchDeeper (first : Component) (own : List Component) (child : Candidate) :
    Except ListError (List Path) :=
  if first == .directories && child.isDirectory then
    search caller fs directoriesOnly steps (.directories :: own) child
  else .ok []

/-- What a search finds through an entry of a directory. -/
def searchEntry (first : Component) (rest : List Component) (path : Path) (entry : String × Node) :
    Except ListError (List Path) := do
  let child := Candidate.ofEntry caller fs path entry.1 entry.2
  let found ← searchOwn caller fs directoriesOnly steps entry.1 child (own first rest)
  let deeper ← searchDeeper caller fs directoriesOnly steps first (own first rest) child
  return found ++ deeper

end Entries

/-- Whether a search goes on with the path of a literal component. -/
def goesOn (caller : Caller) (fs : FileSystem) (text : List Char) (c : Candidate) : Bool :=
  if text == ['.'] || text == ['.', '.'] then c.isDirectory
  else stands caller fs (c.path.join ⟨String.ofList text⟩)

/-- A search for a literal component goes on there, if it may, and finds nothing else. -/
theorem search_literal {directoriesOnly : Bool} {steps : Nat} {text : List Char}
    {rest : List Component} {c : Candidate} :
    search caller fs directoriesOnly (steps + 1) (.literal text :: rest) c =
      if goesOn caller fs text c then
        search caller fs directoriesOnly steps rest
          (.ofPath caller fs (c.path.join ⟨String.ofList text⟩))
      else .ok [] := by
  rw [search.eq_def]
  rfl

/-- A component that does not fit a dot or two dots where these are tried. -/
def Component.Stays (component : Component) : Prop :=
  component.beginsWithDot = true → component.fits ['.', '.'] = false ∧ component.fits ['.'] = false

/-- A component that does not begin with a dot does not fit the directory itself or the one above it.
-/
theorem Component.stays_of_beginsWithDot {component : Component}
    (h : component.beginsWithDot = false) : component.Stays := fun hdot =>
  absurd hdot (Bool.eq_false_iff.1 h)

/-- Which of the names of a directory itself and of the one above it fit a component. -/
def specials (first : Component) : List String :=
  (if first.beginsWithDot then ["..", "."] else []).filter fun name => first.fits name.toList

/-- A component that stays finds nothing in the directory itself and the one above it. -/
theorem specials_eq_nil {first : Component} (h : first.Stays) : specials first = [] := by
  rw [specials]
  split
  · next hdot =>
      obtain ⟨hparent, hcurrent⟩ := h hdot
      simp [hparent, hcurrent]
  · rfl

/-- A search for a component that is not literal goes through the special names that fit it, and then
through the entries. -/
theorem search_wild {directoriesOnly : Bool} {steps : Nat} {first : Component} {rest : List Component}
    {c : Candidate} (hfirst : ∀ text, first ≠ .literal text) :
    search caller fs directoriesOnly (steps + 1) (first :: rest) c =
      if !c.isDirectory then .ok []
      else
        match fs.readDirectory caller c.path with
        | .error e => .error ⟨c.path, e⟩
        | .ok entries => do
          let above ← List.flatten <$> (specials first).mapM fun name =>
            search caller fs directoriesOnly steps rest (.ofPath caller fs (c.path.join ⟨name⟩))
          let inside ← List.flatten <$>
            entries.mapM (searchEntry caller fs directoriesOnly steps first rest c.path)
          return above ++ inside := by
  -- the search puts all lists together at once, the statement those of the entries first
  have hlists {above : Except ListError (List (List Path))} {entries : List (String × Node)}
      {f g : String × Node → Except ListError (List Path)} (h : ∀ entry, f entry = g entry) :
      (above >>= fun above => entries.mapM f >>= fun inside => pure (above ++ inside).flatten) =
        (List.flatten <$> above >>= fun above => List.flatten <$> entries.mapM g >>= fun inside =>
          pure (above ++ inside)) := by
    rw [funext h]
    cases above with
    | error e => rfl
    | ok above =>
        cases entries.mapM g with
        | error e => rfl
        | ok inside => exact congrArg Except.ok List.flatten_append
  have hown (first : Component) : (if first == .directories then rest.dropWhile (· == .directories)
      else first :: rest) = own first rest := rfl
  have hspecials (first : Component) : ((if first.beginsWithDot then ["..", "."] else []).filter
      fun name => first.fits name.toList) = specials first := rfl
  rw [search.eq_def]
  cases first with
  | literal text => exact absurd rfl (hfirst text)
  | directories | wild =>
      simp only [hspecials]
      split
      · rfl
      · cases fs.readDirectory caller c.path with
        | error e => rfl
        | ok entries =>
            refine hlists fun entry => ?_
            rw [searchEntry]
            simp only [hown, searchDeeper]
            cases own _ rest <;> simp only [searchOwn] <;> split_ifs <;> rfl

/-- A search for a component that stays goes through the entries, if the component is not literal. -/
theorem search_succ {directoriesOnly : Bool} {steps : Nat} {first : Component} {rest : List Component}
    {c : Candidate} (hfirst : ∀ text, first ≠ .literal text) (hstays : first.Stays) :
    search caller fs directoriesOnly (steps + 1) (first :: rest) c =
      if !c.isDirectory then .ok []
      else
        match fs.readDirectory caller c.path with
        | .error e => .error ⟨c.path, e⟩
        | .ok entries =>
          List.flatten <$>
            entries.mapM (searchEntry caller fs directoriesOnly steps first rest c.path) := by
  rw [search_wild hfirst, specials_eq_nil hstays]
  simp

/-- A component that does not lead up stays, unless it is literal. -/
theorem Component.Descends.stays {component : Component} (h : component.Descends)
    (hliteral : ∀ text, component ≠ literal text) : component.Stays := by
  cases component with
  | literal text => exact absurd rfl (hliteral text)
  | directories | wild => exact stays_of_beginsWithDot h

/-- The components that a name is matched against are some of the pattern. -/
theorem own_sublist (first : Component) (rest : List Component) :
    (own first rest).Sublist (first :: rest) := by
  rw [own]
  split
  · exact (List.dropWhile_sublist _).cons first
  · exact .refl _

/-- The components that a name is matched against do not lead up when the pattern does not. -/
theorem descends_own {first : Component} {rest : List Component}
    (h : ∀ component ∈ first :: rest, component.Descends) :
    ∀ component ∈ own first rest, component.Descends :=
  fun component hmem => h component ((own_sublist first rest).mem hmem)

/-- The components that a search goes deeper with do not lead up when the pattern does not. -/
theorem descends_deeper {first : Component} {rest : List Component}
    (h : ∀ component ∈ first :: rest, component.Descends) :
    ∀ component ∈ Component.directories :: own first rest, component.Descends := by
  intro component hmem
  rcases List.mem_cons.1 hmem with rfl | hmem
  · exact rfl
  · exact descends_own h component hmem

/-- The entries of a directory inside are inside. -/
theorem inside_of_readDirectory (wf : fs.WellFormed) (hpath : Inside root path)
    {entries : List (String × Node)} (h : fs.readDirectory caller path = .ok entries)
    {entry : String × Node} (hentry : entry ∈ entries) : Inside root (path.join ⟨entry.1⟩) := by
  cases hfind : Lookup.find caller fs true path with
  | error e =>
      rw [FileSystem.readDirectory, hfind] at h
      cases h
  | ok r =>
      obtain ⟨l, node⟩ := r
      rw [FileSystem.eq_children_of_readDirectory hfind h] at hentry
      have hname := wf.isName _ _ (FileSystem.mem_children.1 hentry) entry.1 (by simp)
      exact hpath.join (Lookup.leadsDown_name hname)

/-- What a search finds through an entry does not depend on anything outside of the tree, if the same
holds of shorter searches. -/
theorem searchEntry_eq (h : Sheltered caller root top fs fs') (directoriesOnly : Bool) (steps : Nat)
    {first : Component} {rest : List Component} {entry : String × Node}
    (hpattern : ∀ component ∈ first :: rest, component.Descends)
    (hentry : Inside root (path.join ⟨entry.1⟩))
    (ih : ∀ pattern c, (∀ component ∈ pattern, component.Descends) → Inside root c.path →
      search caller fs' directoriesOnly steps pattern c =
        search caller fs directoriesOnly steps pattern c) :
    searchEntry caller fs' directoriesOnly steps first rest path entry =
      searchEntry caller fs directoriesOnly steps first rest path entry := by
  have hown := descends_own hpattern
  have hchild : Inside root (Candidate.ofEntry caller fs path entry.1 entry.2).path := by
    rwa [Candidate.path_ofEntry]
  rw [searchEntry, searchEntry, Candidate.ofEntry_eq h hentry]
  simp only [searchDeeper, ih _ _ (descends_deeper hpattern) hchild]
  cases hcase : own first rest with
  | nil => rfl
  | cons component others =>
      have hothers : ∀ other ∈ others, other.Descends := fun other hmem =>
        hown other (hcase ▸ List.mem_cons_of_mem _ hmem)
      simp only [searchOwn, ih others _ hothers hchild]

/-- Functions that agree on the elements of a list give the same for the list. -/
theorem mapM_congr {ε α β : Type} {f g : α → Except ε β} {as : List α} (h : ∀ a ∈ as, f a = g a) :
    as.mapM f = as.mapM g := by
  induction as with
  | nil => rfl
  | cons a as ih =>
      rw [List.mapM_cons, List.mapM_cons, h a List.mem_cons_self,
        ih fun b hb => h b (List.mem_cons_of_mem a hb)]

/-- A search inside a sheltered tree finds what it found before. -/
theorem search_eq (wf : fs.WellFormed) (h : Sheltered caller root top fs fs') {directoriesOnly : Bool}
    {steps : Nat} {pattern : List Component} {c : Candidate}
    (hpattern : ∀ component ∈ pattern, component.Descends) (hc : Inside root c.path) :
    search caller fs' directoriesOnly steps pattern c =
      search caller fs directoriesOnly steps pattern c := by
  -- on the length of the search, which stays inside the root and sees the same there
  induction steps generalizing pattern c with
  | zero => rw [search.eq_def, search.eq_def]
  | succ steps ih =>
      cases pattern with
      | nil => rw [search.eq_def, search.eq_def]
      | cons first rest =>
          have hrest : ∀ component ∈ rest, component.Descends := fun component hmem =>
            hpattern component (List.mem_cons_of_mem first hmem)
          by_cases hliteral : ∃ text, first = .literal text
          · obtain ⟨text, rfl⟩ := hliteral
            obtain ⟨hslash, hparent⟩ := hpattern _ List.mem_cons_self
            have hnext := hc.join (Lookup.leadsDown_of_no_slash hslash hparent)
            have hsearch := ih hrest (c := .ofPath caller fs (c.path.join ⟨String.ofList text⟩)) hnext
            rw [search_literal, search_literal, goesOn, goesOn, stands_eq h hnext,
              Candidate.ofPath_eq h hnext, hsearch]
          · have hfirst : ∀ text, first ≠ .literal text := fun text heq => hliteral ⟨text, heq⟩
            have hstays := (hpattern first List.mem_cons_self).stays hfirst
            rw [search_succ hfirst hstays, search_succ hfirst hstays, h.readDirectory_eq hc]
            cases hread : fs.readDirectory caller c.path with
            | error e => rfl
            | ok entries =>
                have hentries := mapM_congr fun entry hentry =>
                  searchEntry_eq h directoriesOnly steps hpattern
                    (inside_of_readDirectory wf hc hread hentry) fun pattern c => ih
                simp only [hentries]

/-- What a search finds through an entry inside is inside, if the same holds of shorter searches. -/
theorem inside_of_mem_searchEntry {directoriesOnly : Bool} {steps : Nat} {first : Component}
    {rest : List Component} {entry : String × Node} {directory : Path} {found : List Path}
    (hpattern : ∀ component ∈ first :: rest, component.Descends)
    (hentry : Inside root (directory.join ⟨entry.1⟩))
    (ih : ∀ pattern c found, (∀ component ∈ pattern, component.Descends) → Inside root c.path →
      search caller fs directoriesOnly steps pattern c = .ok found → path ∈ found → Inside root path)
    (h : searchEntry caller fs directoriesOnly steps first rest directory entry = .ok found)
    (hmem : path ∈ found) : Inside root path := by
  have hown := descends_own hpattern
  have hchild : Inside root (Candidate.ofEntry caller fs directory entry.1 entry.2).path := by
    rwa [Candidate.path_ofEntry]
  obtain ⟨mine, hmine, h⟩ := Run.of_bind_ok h
  obtain ⟨deeper, hdeeper, h⟩ := Run.of_bind_ok h
  obtain rfl := Except.ok.inj h
  rcases List.mem_append.1 hmem with hmem | hmem
  · unfold searchOwn at hmine
    split at hmine
    · obtain rfl := Except.ok.inj hmine
      split at hmem
      · rwa [List.mem_singleton.1 hmem]
      · cases hmem
    · next component others hcase =>
        have hothers : ∀ other ∈ others, other.Descends := fun other hother =>
          hown other (hcase ▸ List.mem_cons_of_mem _ hother)
        split at hmine
        · exact ih others _ mine hothers hchild hmine hmem
        · obtain rfl := Except.ok.inj hmine
          cases hmem
  · unfold searchDeeper at hdeeper
    split at hdeeper
    · exact ih _ _ deeper (descends_deeper hpattern) hchild hdeeper hmem
    · obtain rfl := Except.ok.inj hdeeper
      cases hmem

/-- What a search inside a tree finds is inside. -/
theorem inside_of_mem_search (wf : fs.WellFormed) {directoriesOnly : Bool} {steps : Nat}
    {pattern : List Component} {c : Candidate} {found : List Path}
    (hpattern : ∀ component ∈ pattern, component.Descends) (hc : Inside root c.path)
    (h : search caller fs directoriesOnly steps pattern c = .ok found) (hmem : path ∈ found) :
    Inside root path := by
  -- on the length of the search; wherever it goes on, the path is still inside the root
  induction steps generalizing pattern c found with
  | zero =>
      rw [search.eq_def] at h
      cases h
      cases hmem
  | succ steps ih =>
      cases pattern with
      | nil =>
          rw [search.eq_def] at h
          obtain rfl := Except.ok.inj h
          split at hmem
          · cases hmem
          · rwa [List.mem_singleton.1 hmem]
      | cons first rest =>
          have hrest : ∀ component ∈ rest, component.Descends := fun component hmem =>
            hpattern component (List.mem_cons_of_mem first hmem)
          by_cases hliteral : ∃ text, first = .literal text
          · obtain ⟨text, rfl⟩ := hliteral
            obtain ⟨hslash, hparent⟩ := hpattern _ List.mem_cons_self
            have hnext := hc.join (Lookup.leadsDown_of_no_slash hslash hparent)
            rw [search_literal] at h
            split_ifs at h
            · exact ih hrest (c := .ofPath caller fs (c.path.join ⟨String.ofList text⟩)) hnext h hmem
            · obtain rfl := Except.ok.inj h
              cases hmem
          · have hfirst : ∀ text, first ≠ .literal text := fun text heq => hliteral ⟨text, heq⟩
            have hstays := (hpattern first List.mem_cons_self).stays hfirst
            rw [search_succ hfirst hstays] at h
            split at h
            · cases h
              cases hmem
            · split at h
              · cases h
              · next entries hread =>
                  obtain ⟨lists, hlists, rfl⟩ := Run.of_map_ok h
                  obtain ⟨list, hlist, hmem⟩ := List.mem_flatten.1 hmem
                  obtain ⟨entry, hentry, hlist⟩ := FileSystem.exists_of_forall₂
                    (FileSystem.forall₂_of_mapM hlists).flip hlist
                  have hinside := inside_of_readDirectory wf hc hread hentry
                  exact inside_of_mem_searchEntry hpattern hinside (fun pattern c found => ih) hlist
                    hmem

end Search

/-! ## Names -/

/-- Names without wildcards stand for nothing but the path that they write, if it leads anywhere. -/
theorem eq_along_of_mem_expand {caller : Caller} {fs : FileSystem} {root p : Path}
    {names : List String} {found : List Path} (hroot : root.text ≠ "") (hne : names ≠ [])
    (hnames : ∀ name ∈ names, Path.IsName name) (hplain : hasWildcards (Path.slashed names) = false)
    (h : expand caller fs root (Path.slashed names) = .ok found) (hp : p ∈ found) :
    p = root.along names ∧ ∃ r, Lookup.find caller fs false p = .ok r := by
  have hpath : root.join ⟨Path.slashed names⟩ = root.along names := Path.join_slashed hroot hne hnames
  have hexpand : found = if (fs.lstat caller (root.along names)).isOk
      then [root.along names] else [] := by
    rw [expand, hplain] at h
    rw [← hpath]
    exact (Except.ok.inj h).symm
  rw [hexpand] at hp
  split at hp
  · next hstands =>
      obtain rfl := List.mem_singleton.1 hp
      exact ⟨rfl, Lookup.isOk_lstat_iff.1 hstands⟩
  · simp at hp

end RpmRelease.Glob
