import Mathlib.Algebra.Ring.Nat
import Mathlib.Tactic.Common
import RpmRelease.Path

/-!
# The components of texts that are put together

A path grows by a slash and one more segment.  When the segment has no slash in it, the components
of the longer path are those of the shorter one and the one that the segment writes, if it writes
one.  From this follow the components of a path joined with names, and that such a path, seen from
the path it was joined to, is just the names with slashes between them.
-/

set_option autoImplicit false

namespace RpmRelease

namespace Path

/-! ## Segments -/

/-- A segment that is not the first one of a relative path. -/
def Segment.inner (text : List Char) : Segment :=
  ⟨text, !text.isEmpty && text != ['.']⟩

/-- All segments of an absolute path are inner ones. -/
theorem segments_absolute (cs : List Char) :
    segments ⟨String.ofList ('/' :: cs)⟩ = (Text.splitWhen (· == '/') cs).map Segment.inner := by
  cases h : Text.splitWhen (· == '/') cs with
  | nil => exact absurd h (Text.splitWhen_ne_nil _ cs)
  | cons first more => simp [segments, isAbsolute, h, Segment.inner]

/-- The first segment of a relative path counts when it is not empty, and the others are inner ones.
-/
theorem segments_relative {cs first : List Char} {more : List (List Char)}
    (hrelative : cs.head? ≠ some '/') (h : Text.splitWhen (· == '/') cs = first :: more) :
    segments ⟨String.ofList cs⟩ = ⟨first, !first.isEmpty⟩ :: more.map Segment.inner := by
  simp [segments, isAbsolute, hrelative, h, Segment.inner]

/-- A text is cut into segments behind the slash that it begins with, or from its beginning; there, the
first segment is not empty unless the text is. -/
theorem cases_segments (p : Path) :
    (∃ cs, p.text.toList = '/' :: cs ∧ p.isAbsolute = true ∧
      p.segments = (Text.splitWhen (· == '/') cs).map Segment.inner) ∨
    ∃ first more, Text.splitWhen (· == '/') p.text.toList = first :: more ∧
      (p.text ≠ "" → first ≠ []) ∧ p.isAbsolute = false ∧
      p.segments = ⟨first, !first.isEmpty⟩ :: more.map Segment.inner := by
  obtain ⟨text⟩ := p
  obtain ⟨cs, rfl⟩ : ∃ cs, text = String.ofList cs := ⟨text.toList, String.ofList_toList.symm⟩
  rw [String.toList_ofList]
  cases cs with
  | nil => exact .inr ⟨[], [], rfl, by simp, rfl, rfl⟩
  | cons c cs =>
      by_cases hc : c = '/'
      · subst hc
        exact .inl ⟨cs, rfl, by simp [isAbsolute], segments_absolute cs⟩
      · cases hcut : Text.splitWhen (· == '/') (c :: cs) with
        | nil => exact absurd hcut (Text.splitWhen_ne_nil _ _)
        | cons first more =>
            refine .inr ⟨first, more, rfl, ?_, by simpa [isAbsolute] using hc,
              segments_relative (by simpa using hc) hcut⟩
            rintro - rfl
            rw [Text.splitWhen, if_neg (by simpa using hc)] at hcut
            cases hrest : Text.splitWhen (· == '/') cs with
            | nil => exact absurd hrest (Text.splitWhen_ne_nil _ _)
            | cons piece pieces => simp [hrest] at hcut

/-- No slash is in a piece between slashes. -/
theorem not_mem_of_mem_splitWhen {cs piece : List Char}
    (h : piece ∈ Text.splitWhen (· == '/') cs) : '/' ∉ piece :=
  fun hmem => absurd (Text.mem_of_mem_splitWhen h hmem).2 (by simp)

/-- What follows a text that is not empty has no part in whether the path is absolute. -/
theorem isAbsolute_append {cs : List Char} (ds : List Char) (hcs : cs ≠ []) :
    isAbsolute ⟨String.ofList (cs ++ ds)⟩ = isAbsolute ⟨String.ofList cs⟩ := by
  cases cs with
  | nil => exact absurd rfl hcs
  | cons c cs => simp [isAbsolute]

/-- A slash and a text behind a path add the segments of that text. -/
theorem segments_append {cs : List Char} (ds : List Char) (hcs : cs ≠ []) :
    segments ⟨String.ofList (cs ++ '/' :: ds)⟩ =
      segments ⟨String.ofList cs⟩ ++ (Text.splitWhen (· == '/') ds).map Segment.inner := by
  have hcut (front : List Char) : Text.splitWhen (· == '/') (front ++ '/' :: ds) =
      Text.splitWhen (· == '/') front ++ Text.splitWhen (· == '/') ds :=
    Text.splitWhen_append_cons front ds (by decide)
  cases cs with
  | nil => exact absurd rfl hcs
  | cons c cs =>
      by_cases hc : c = '/'
      · subst hc
        rw [List.cons_append, segments_absolute, segments_absolute, hcut, List.map_append]
      · have hhead (rest : List Char) : (c :: rest).head? ≠ some '/' := by
          simpa using hc
        cases h : Text.splitWhen (· == '/') (c :: cs) with
        | nil => exact absurd h (Text.splitWhen_ne_nil _ _)
        | cons first more =>
            have hlong : Text.splitWhen (· == '/') (c :: (cs ++ '/' :: ds)) =
                first :: (more ++ Text.splitWhen (· == '/') ds) := by
              rw [← List.cons_append, hcut, h, List.cons_append]
            rw [segments_relative (hhead cs) h, List.cons_append,
              segments_relative (hhead _) hlong, List.map_append, List.cons_append]

/-- A text without slashes is a single piece. -/
theorem splitWhen_of_no_slash {cs : List Char} (h : '/' ∉ cs) :
    Text.splitWhen (· == '/') cs = [cs] :=
  Text.splitWhen_eq_singleton fun c hc => by
    have hne : c ≠ '/' := fun heq => h (heq ▸ hc)
    simpa using hne

/-! ## Components -/

/-- What a segment that is not the first one adds to the components of a path. -/
def added (text : List Char) : List Component :=
  if text = [] ∨ text = ['.'] then [] else [(Segment.inner text).component]

/-- An inner segment gives the components that its text adds. -/
theorem component_inner (text : List Char) :
    (([Segment.inner text].filter (·.counts)).map Segment.component) = added text := by
  by_cases h : text = [] ∨ text = ['.']
  · have hcounts : (Segment.inner text).counts = false := by
      rcases h with h | h <;> subst h <;> rfl
    rw [added, if_pos h, List.filter_cons_of_neg (by simp [hcounts])]
    rfl
  · have hcounts : (Segment.inner text).counts = true := by
      simp only [not_or] at h
      simp [Segment.inner, h.1, h.2]
    rw [added, if_neg h, List.filter_cons_of_pos hcounts]
    rfl

/-- A segment behind a path adds its components to those of the path. -/
theorem components_append {cs segment : List Char} (hcs : cs ≠ []) (hsegment : '/' ∉ segment) :
    components ⟨String.ofList (cs ++ '/' :: segment)⟩ =
      components ⟨String.ofList cs⟩ ++ added segment := by
  rw [components, segments_append segment hcs, isAbsolute_append _ hcs,
    splitWhen_of_no_slash hsegment, List.map_singleton, List.filter_append, List.map_append,
    component_inner, ← List.append_assoc]
  rfl

/-- A slash at the end of a path adds no components. -/
theorem components_append_slash {cs : List Char} (hcs : cs ≠ []) :
    components ⟨String.ofList (cs ++ ['/'])⟩ = components ⟨String.ofList cs⟩ := by
  have h := @components_append cs [] hcs (by simp)
  rwa [added, if_pos (Or.inl rfl), List.append_nil] at h

/-- A segment behind the root adds its components to the root. -/
theorem components_root {segment : List Char} (hsegment : '/' ∉ segment) :
    components ⟨String.ofList ('/' :: segment)⟩ = .root :: added segment := by
  have habsolute : isAbsolute ⟨String.ofList ('/' :: segment)⟩ = true := by
    simp [isAbsolute]
  rw [components, habsolute, segments_absolute, splitWhen_of_no_slash hsegment, List.map_singleton,
    component_inner]
  rfl

/-- The first segment of a relative path is a component of its own, even when it is a dot. -/
theorem components_first {first : List Char} (more : List Segment) (hne : first ≠ []) :
    ((((⟨first, !first.isEmpty⟩ : Segment) :: more).filter (·.counts)).map Segment.component) =
      (Segment.inner first).component :: (more.filter (·.counts)).map Segment.component := by
  have hcounts : (⟨first, !first.isEmpty⟩ : Segment).counts = true := by simpa using hne
  rw [List.filter_cons_of_pos hcounts, List.map_cons]
  rfl

/-- A relative path of one segment has one component. -/
theorem components_segment {segment : List Char} (hne : segment ≠ []) (hsegment : '/' ∉ segment) :
    components ⟨String.ofList segment⟩ = [(Segment.inner segment).component] := by
  have hhead : segment.head? ≠ some '/' := fun h => hsegment (List.mem_of_head? h)
  have hrelative : isAbsolute ⟨String.ofList segment⟩ = false := by
    simpa [isAbsolute] using hhead
  rw [components, hrelative, segments_relative hhead (splitWhen_of_no_slash hsegment),
    components_first _ hne]
  rfl

/-! ## Names -/

/-- A text that names an entry of a directory. -/
structure IsName (name : String) : Prop where
  ne_empty : name ≠ ""
  no_slash : '/' ∉ name.toList
  ne_current : name ≠ "."
  ne_parent : name ≠ ".."

namespace IsName

variable {name : String}

/-- A name is not empty. -/
theorem chars_ne_nil (h : IsName name) : name.toList ≠ [] :=
  fun heq => h.ne_empty (String.toList_eq_nil_iff.1 heq)

/-- A name is not a dot. -/
theorem chars_ne_current (h : IsName name) : name.toList ≠ ['.'] :=
  fun heq => h.ne_current (String.toList_inj.1 (heq.trans rfl))

/-- A name is not two dots. -/
theorem chars_ne_parent (h : IsName name) : name.toList ≠ ['.', '.'] :=
  fun heq => h.ne_parent (String.toList_inj.1 (heq.trans rfl))

end IsName

/-- A component that may follow others: two dots or a name. -/
def Component.Inner (c : Component) : Prop :=
  c = .parent ∨ ∃ name, c = .normal name ∧ IsName name

/-- An inner component is no dot. -/
theorem Component.Inner.ne_current {c : Component} (h : c.Inner) : c ≠ .current := by
  rcases h with rfl | ⟨name, rfl, _⟩ <;> simp

/-- An inner component is not the root. -/
theorem Component.Inner.ne_root {c : Component} (h : c.Inner) : c ≠ .root := by
  rcases h with rfl | ⟨name, rfl, _⟩ <;> simp

/-- The characters of a component. -/
def Component.chars (c : Component) : List Char :=
  c.path.text.toList

/-- What the segment of a component adds is that component. -/
theorem Component.Inner.added_chars {c : Component} (h : c.Inner) :
    c.chars ≠ [] ∧ '/' ∉ c.chars ∧ (Segment.inner c.chars).component = c ∧ added c.chars = [c] := by
  rcases h with rfl | ⟨name, rfl, hname⟩
  · decide
  · have hcomponent : (Segment.inner name.toList).component = .normal name := by
      simp [Segment.inner, Segment.component, hname.chars_ne_current, hname.chars_ne_parent]
    have hadded : added name.toList = [.normal name] := by
      rw [added, if_neg (by simp [hname.chars_ne_nil, hname.chars_ne_current]), hcomponent]
    exact ⟨hname.chars_ne_nil, hname.no_slash, hcomponent, hadded⟩

/-- What an inner segment adds may follow other components. -/
theorem inner_of_mem_added {segment : List Char} {c : Component} (hsegment : '/' ∉ segment)
    (hc : c ∈ added segment) : c.Inner := by
  rw [added] at hc
  split at hc
  · simp at hc
  · next hcounts =>
      rw [not_or] at hcounts
      rw [List.mem_singleton] at hc
      subst hc
      by_cases hparent : segment = ['.', '.']
      · exact Or.inl (by simp [Segment.inner, Segment.component, hparent])
      · refine Or.inr ⟨String.ofList segment, ?_, ?_, ?_, ?_, ?_⟩
        · simp [Segment.inner, Segment.component, hparent, hcounts.2]
        · simpa [← String.toList_inj] using hcounts.1
        · simpa using hsegment
        · simpa [← String.toList_inj] using hcounts.2
        · simpa [← String.toList_inj] using hparent

/-- Only the first component of a path can be the root or a single dot. -/
theorem exists_components (p : Path) : ∃ front body, p.components = front ++ body ∧
    (front = [] ∨ front = [.root] ∨ front = [.current]) ∧ ∀ c ∈ body, c.Inner := by
  have hinner (pieces : List (List Char)) (hpieces : ∀ piece ∈ pieces, '/' ∉ piece) :
      ∀ c ∈ (((pieces.map Segment.inner).filter (·.counts)).map Segment.component), c.Inner := by
    intro c hc
    obtain ⟨s, hs, rfl⟩ := List.mem_map.1 hc
    obtain ⟨hs, hcounts⟩ := List.mem_filter.1 hs
    obtain ⟨piece, hpiece, rfl⟩ := List.mem_map.1 hs
    refine inner_of_mem_added (hpieces piece hpiece) ?_
    rw [← component_inner, List.filter_cons_of_pos hcounts]
    exact List.mem_singleton_self _
  rcases cases_segments p with ⟨cs, -, habsolute, hsegments⟩ |
    ⟨first, more, hcut, -, hrelative, hsegments⟩
  · have hbody := hinner (Text.splitWhen (· == '/') cs) fun _ => not_mem_of_mem_splitWhen
    refine ⟨[.root], _, ?_, Or.inr (Or.inl rfl), hbody⟩
    rw [components, habsolute, hsegments, if_pos rfl]
  · have hfirst : '/' ∉ first := not_mem_of_mem_splitWhen (hcut ▸ List.mem_cons_self)
    have hmore := hinner more fun _ h => not_mem_of_mem_splitWhen (hcut ▸ List.mem_cons_of_mem _ h)
    rw [components, hrelative, hsegments]
    by_cases hempty : first = []
    · refine ⟨[], _, ?_, Or.inl rfl, hmore⟩
      simp [hempty]
    · by_cases hdot : first = ['.']
      · refine ⟨[.current], _, ?_, Or.inr (Or.inr rfl), hmore⟩
        simp [hdot, Segment.component]
      · rw [components_first _ hempty]
        refine ⟨[], _, rfl, Or.inl rfl, ?_⟩
        intro d hd
        rcases List.mem_cons.1 hd with rfl | hd
        · refine inner_of_mem_added hfirst ?_
          rw [added, if_neg (by simp [hempty, hdot])]
          exact List.mem_singleton_self _
        · exact hmore d hd

/-! ## Joining a name -/

/-- A text without slashes is a relative path. -/
theorem isAbsolute_of_no_slash {name : String} (h : '/' ∉ name.toList) :
    (⟨name⟩ : Path).isAbsolute = false := by
  have hhead : name.toList.head? ≠ some '/' := fun hhead => h (List.mem_of_head? hhead)
  simpa [isAbsolute] using hhead

/-- A path joined with a relative one is written with one slash between them. -/
theorem exists_join_relative {p q : Path} (hp : p.text ≠ "") (hq : q.isAbsolute = false) :
    ∃ base, (p.join q).text.toList = base ++ '/' :: q.text.toList ∧
      (p.text.toList = base ++ ['/'] ∨ (p.text.toList = base ∧ base ≠ [])) := by
  have hne : p.text.toList ≠ [] := fun h => hp (String.toList_eq_nil_iff.1 h)
  have hempty : p.text.isEmpty = false := by simpa using hp
  by_cases hlast : p.text.toList.getLast? = some '/'
  · obtain ⟨base, hbase⟩ := List.getLast?_eq_some_iff.1 hlast
    refine ⟨base, ?_, Or.inl hbase⟩
    simp [join, hq, hbase]
  · refine ⟨p.text.toList, ?_, Or.inr ⟨rfl, hne⟩⟩
    simp [join, hq, hlast, hempty]

/-- A path joined with a relative one starts where it starts itself. -/
theorem isAbsolute_join {p q : Path} (hp : p.text ≠ "") (hq : q.isAbsolute = false) :
    (p.join q).isAbsolute = p.isAbsolute := by
  obtain ⟨base, hjoin, hbase⟩ := exists_join_relative hp hq
  rw [isAbsolute, isAbsolute, hjoin]
  rcases hbase with hbase | ⟨hbase, hne⟩ <;> rw [hbase]
  · cases base <;> rfl
  · cases base with
    | nil => exact absurd rfl hne
    | cons c base => rfl

/-- A path joined with a name is written with one slash between them. -/
theorem exists_join {p : Path} {name : String} (hp : p.text ≠ "") (hname : '/' ∉ name.toList) :
    ∃ base, (p.join ⟨name⟩).text.toList = base ++ '/' :: name.toList ∧
      (p.text.toList = base ++ ['/'] ∨ (p.text.toList = base ∧ base ≠ [])) :=
  exists_join_relative hp (isAbsolute_of_no_slash hname)

/-- A path joined with a name is at least as long as both together. -/
theorem size_join {p : Path} {name : String} (hname : IsName name) :
    p.text.utf8ByteSize + name.utf8ByteSize ≤ (p.join ⟨name⟩).text.utf8ByteSize := by
  rw [join, isAbsolute_of_no_slash hname.no_slash, if_neg (by decide)]
  split
  · exact Nat.le_of_eq String.utf8ByteSize_append.symm
  · rw [String.utf8ByteSize_append, String.utf8ByteSize_append, Nat.add_assoc]
    exact Nat.add_le_add_left (Nat.le_add_left _ _) _

/-- A path joined with a name is longer. -/
theorem size_lt_join {p : Path} {name : String} (hname : IsName name) :
    p.text.utf8ByteSize < (p.join ⟨name⟩).text.utf8ByteSize := by
  have hnonempty := String.utf8ByteSize_eq_zero_iff.not.2 hname.ne_empty
  have hbytes := size_join (p := p) hname
  omega

/-- A path joined with names one after the other. -/
def along (p : Path) (names : List String) : Path :=
  names.foldl (fun path name => path.join ⟨name⟩) p

/-- One name more is joined to the path along the names. -/
theorem along_concat (p : Path) (names : List String) (name : String) :
    p.along (names ++ [name]) = (p.along names).join ⟨name⟩ := by
  rw [along, List.foldl_append]
  rfl

/-- The bytes of some names. -/
def sizes (names : List String) : Nat :=
  (names.map String.utf8ByteSize).sum

/-- There are no more names than they have bytes. -/
theorem length_le_sizes {names : List String} (hnames : ∀ name ∈ names, IsName name) :
    names.length ≤ sizes names := by
  induction names with
  | nil => exact Nat.le_refl _
  | cons name names ih =>
      have hsize : name.utf8ByteSize ≠ 0 := fun h =>
        (hnames name List.mem_cons_self).ne_empty (String.utf8ByteSize_eq_zero_iff.1 h)
      have hrest := ih fun other h => hnames other (List.mem_cons_of_mem name h)
      simp only [sizes, List.map_cons, List.sum_cons, List.length_cons] at hrest ⊢
      omega

/-- The path along some names is at least as long as the path and the names together. -/
theorem size_along {p : Path} {names : List String} (hnames : ∀ name ∈ names, IsName name) :
    p.text.utf8ByteSize + sizes names ≤ (p.along names).text.utf8ByteSize := by
  induction names generalizing p with
  | nil => exact Nat.le_refl _
  | cons name names ih =>
      have hjoin := size_join (p := p) (hnames name List.mem_cons_self)
      have hrest := ih (p := p.join ⟨name⟩) fun other h => hnames other (List.mem_cons_of_mem name h)
      simp only [sizes, List.map_cons, List.sum_cons] at hrest ⊢
      exact Nat.le_trans (by omega) hrest

/-! ## What is below a path -/

/-- The segment of a name. -/
def Segment.ofName (name : String) : Segment := ⟨name.toList, true⟩

/-- Names with slashes between them. -/
def slashed (names : List String) : String :=
  String.ofList (List.intercalate ['/'] (names.map String.toList))

/-- Between the first name and the others stands a slash. -/
theorem slashed_cons (name : String) {names : List String} (hne : names ≠ []) :
    slashed (name :: names) = name ++ "/" ++ slashed names := by
  cases names with
  | nil => exact absurd rfl hne
  | cons other names =>
      rw [← String.toList_inj]
      simp [slashed, List.intercalate]

/-- A single name has no slashes. -/
theorem slashed_singleton (name : String) : slashed [name] = name := by
  rw [← String.toList_inj]
  simp [slashed, List.intercalate]

/-- Names with slashes between them have their bytes and at most one slash for each of them. -/
theorem size_slashed_le (names : List String) :
    (slashed names).utf8ByteSize ≤ sizes names + names.length := by
  induction names with
  | nil => exact Nat.le_refl 0
  | cons name names ih =>
      simp only [sizes, List.map_cons, List.sum_cons, List.length_cons] at ih ⊢
      by_cases hne : names = []
      · rw [hne, slashed_singleton]
        omega
      · have hslash : "/".utf8ByteSize = 1 := by decide
        rw [slashed_cons name hne, String.utf8ByteSize_append, String.utf8ByteSize_append, hslash]
        omega

/-- Cutting at the slashes gives the names back. -/
theorem splitWhen_slashed {names : List String} (hne : names ≠ [])
    (hnames : ∀ name ∈ names, IsName name) :
    Text.splitWhen (· == '/') (slashed names).toList = names.map String.toList := by
  induction names with
  | nil => exact absurd rfl hne
  | cons name names ih =>
      have hslash := (hnames name List.mem_cons_self).no_slash
      by_cases hnil : names = []
      · rw [hnil, slashed_singleton, splitWhen_of_no_slash hslash, List.map_singleton]
      · have hrest := ih hnil fun other h => hnames other (List.mem_cons_of_mem name h)
        have htext : (slashed (name :: names)).toList =
            name.toList ++ '/' :: (slashed names).toList := by
          rw [slashed_cons name hnil]
          simp
        rw [htext, Text.splitWhen_append_cons _ _ (by decide), splitWhen_of_no_slash hslash, hrest,
          List.singleton_append, List.map_cons]

/-- Different names are different with slashes between them, too. -/
theorem slashed_inj {names others : List String} (hnames : ∀ name ∈ names, IsName name)
    (hothers : ∀ name ∈ others, IsName name) (h : slashed names = slashed others) :
    names = others := by
  have hempty (list : List String) (hlist : ∀ name ∈ list, IsName name) (hnil : slashed list = "") :
      list = [] := by
    by_contra hne
    have hcut := splitWhen_slashed hne hlist
    rw [hnil] at hcut
    obtain ⟨name, hname⟩ : ∃ name, list = [name] := by
      have hlength := congrArg List.length hcut
      rw [List.length_map] at hlength
      exact List.length_eq_one_iff.1 hlength.symm
    subst hname
    rw [slashed_singleton] at hnil
    exact (hlist name (List.mem_singleton_self _)).ne_empty hnil
  by_cases hne : names = []
  · subst hne
    exact (hempty others hothers h.symm).symm
  · by_cases hne' : others = []
    · subst hne'
      exact absurd (hempty names hnames h) hne
    · have hcut := splitWhen_slashed hne hnames
      rw [h, splitWhen_slashed hne' hothers] at hcut
      exact (List.map_inj_right fun _ _ h => String.toList_inj.1 h).1 hcut.symm

/-- The inner segment of the characters of a name is that of the name. -/
theorem inner_name {name : String} (hname : IsName name) :
    Segment.inner name.toList = Segment.ofName name := by
  simp [Segment.inner, Segment.ofName, hname.chars_ne_nil, hname.chars_ne_current]

/-- A path joined with a name has the segment of the name at its end; in front of it, it has the same
components and the same beginning as before. -/
theorem exists_segments_join {p : Path} {name : String} (hp : p.text ≠ "") (hname : IsName name) :
    ∃ front, (p.join ⟨name⟩).segments = front ++ [Segment.ofName name] ∧
      front.filter (·.counts) = p.segments.filter (·.counts) ∧
      (p.text.toList.getLast? ≠ some '/' → front = p.segments) ∧
      (p.join ⟨name⟩).isAbsolute = p.isAbsolute := by
  obtain ⟨base, hjoin, hbase⟩ := exists_join hp hname.no_slash
  have htext : p.join ⟨name⟩ = ⟨String.ofList (base ++ '/' :: name.toList)⟩ := by
    rw [← hjoin, String.ofList_toList]
  have hself : p = ⟨String.ofList p.text.toList⟩ := by
    rw [String.ofList_toList]
  have hinner := inner_name hname
  rw [htext, hself]
  rcases hbase with hbase | ⟨hbase, hne⟩
  · rw [hbase]
    cases base with
    | nil =>
        refine ⟨[], ?_, rfl, fun h => absurd rfl h, ?_⟩
        · rw [List.nil_append, segments_absolute, splitWhen_of_no_slash hname.no_slash,
            List.map_singleton, hinner, List.nil_append]
        · simp [isAbsolute]
    | cons c base =>
        refine ⟨segments ⟨String.ofList (c :: base)⟩, ?_, ?_, ?_, ?_⟩
        · rw [segments_append _ (by simp), splitWhen_of_no_slash hname.no_slash, List.map_singleton,
            hinner]
        · rw [segments_append [] (by simp), List.filter_append]
          exact (List.append_nil _).symm
        · intro h
          rw [String.toList_ofList, List.getLast?_concat] at h
          exact absurd rfl h
        · simp [isAbsolute]
  · rw [hbase]
    refine ⟨segments ⟨String.ofList base⟩, ?_, rfl, fun _ => rfl, isAbsolute_append _ hne⟩
    rw [segments_append _ hne, splitWhen_of_no_slash hname.no_slash, List.map_singleton, hinner]

/-- A path joined with a name is not empty and does not end with a slash. -/
theorem join_last {p : Path} {name : String} (hp : p.text ≠ "") (hname : IsName name) :
    (p.join ⟨name⟩).text ≠ "" ∧ (p.join ⟨name⟩).text.toList.getLast? ≠ some '/' := by
  obtain ⟨base, hjoin, _⟩ := exists_join hp hname.no_slash
  have hne : name.toList ≠ [] := fun h => hname.ne_empty (String.toList_eq_nil_iff.1 h)
  constructor
  · intro h
    rw [h] at hjoin
    simp at hjoin
  · intro h
    rw [hjoin, List.getLast?_append, List.getLast?_cons_of_ne_nil hne] at h
    cases hl : name.toList.getLast? with
    | none => exact hne (by simpa using hl)
    | some c =>
        rw [hl] at h
        obtain rfl : c = '/' := by simpa using h
        exact hname.no_slash (List.mem_of_getLast? hl)

/-- Names behind a path that does not end with a slash add their segments. -/
theorem segments_along {p : Path} {names : List String} (hp : p.text ≠ "")
    (hlast : p.text.toList.getLast? ≠ some '/') (hnames : ∀ name ∈ names, IsName name) :
    (p.along names).segments = p.segments ++ names.map Segment.ofName ∧
      (p.along names).isAbsolute = p.isAbsolute := by
  induction names generalizing p with
  | nil => exact ⟨(List.append_nil _).symm, rfl⟩
  | cons name names ih =>
      have hname := hnames name List.mem_cons_self
      obtain ⟨front, hsegments, _, hfront, habsolute⟩ := exists_segments_join hp hname
      obtain ⟨hp', hlast'⟩ := join_last hp hname
      obtain ⟨hrest, habsolute'⟩ :=
        ih hp' hlast' fun other h => hnames other (List.mem_cons_of_mem name h)
      refine ⟨?_, habsolute'.trans habsolute⟩
      rw [along, List.foldl_cons, ← along, hrest, hsegments, hfront hlast, List.append_assoc,
        List.map_cons, List.singleton_append]

/-- Names behind any path add their segments; those of the path count as before. -/
theorem exists_segments_along {p : Path} {names : List String} (hp : p.text ≠ "")
    (hnames : ∀ name ∈ names, IsName name) :
    ∃ front, (p.along names).segments = front ++ names.map Segment.ofName ∧
      front.filter (·.counts) = p.segments.filter (·.counts) ∧
      (p.along names).isAbsolute = p.isAbsolute := by
  cases names with
  | nil => exact ⟨p.segments, (List.append_nil _).symm, rfl, rfl⟩
  | cons name names =>
      have hname := hnames name List.mem_cons_self
      obtain ⟨front, hsegments, hcounts, _, habsolute⟩ := exists_segments_join hp hname
      obtain ⟨hp', hlast'⟩ := join_last hp hname
      obtain ⟨hrest, habsolute'⟩ :=
        segments_along hp' hlast' fun other h => hnames other (List.mem_cons_of_mem name h)
      refine ⟨front, ?_, hcounts, habsolute'.trans habsolute⟩
      rw [along, List.foldl_cons, ← along, hrest, hsegments, List.append_assoc, List.map_cons,
        List.singleton_append]

/-- Dropping all segments that count leaves what follows them. -/
theorem dropSegments_append (front rest : List Segment) :
    dropSegments (front.filter (·.counts)).length (front ++ rest) = dropSegments 0 rest := by
  induction front with
  | nil => rfl
  | cons s front ih =>
      cases hs : s.counts with
      | true => rw [List.filter_cons_of_pos hs, List.length_cons, List.cons_append, dropSegments,
          if_pos hs, ih]
      | false =>
          rw [List.filter_cons_of_neg (by simp [hs]), List.cons_append]
          cases hlength : (front.filter (·.counts)).length with
          | zero => rw [dropSegments, if_neg (by simp [hs]), ← ih, hlength]
          | succ n => rw [dropSegments, if_neg (by simp [hs]), ← ih, hlength]

/-- Of the segments of names none is left out. -/
theorem trim_ofName (names : List String) :
    trimSegments (dropSegments 0 (names.map Segment.ofName)) = names.map Segment.ofName := by
  have hdrop : dropSegments 0 (names.map Segment.ofName) = names.map Segment.ofName := by
    cases names <;> rfl
  have htrim : ((names.map Segment.ofName).reverse.dropWhile fun s => !s.counts) =
      (names.map Segment.ofName).reverse := by
    rw [← List.map_reverse]
    cases names.reverse <;> rfl
  rw [hdrop, trimSegments, htrim, List.reverse_reverse]

/-- A path joined with names is below the path, and there it is the names with slashes between
them. -/
theorem below?_along {p : Path} {names : List String} (hp : p.text ≠ "")
    (hnames : ∀ name ∈ names, IsName name) : (p.along names).below? p = some ⟨slashed names⟩ := by
  obtain ⟨front, hsegments, hcounts, habsolute⟩ := exists_segments_along hp hnames
  have hcomponents : (p.along names).components = p.components ++
      ((names.map Segment.ofName).filter (·.counts)).map Segment.component := by
    rw [components, components, habsolute, hsegments, List.filter_append, hcounts, List.map_append,
      List.append_assoc]
  have hstarts : (p.along names).startsWith p = true := by
    rw [startsWith, hcomponents]
    exact List.isPrefixOf_iff_prefix.2 (List.prefix_append _ _)
  have hlength : (if p.isAbsolute then p.components.length - 1 else p.components.length) =
      (front.filter (·.counts)).length := by
    rw [hcounts, components]
    cases p.isAbsolute <;> simp
  rw [below?, if_pos hstarts]
  simp only [habsolute, hlength, hsegments, dropSegments_append, trim_ofName]
  simp [ofSegments, slashed, Segment.ofName, Function.comp_def]

/-- Nothing is left of a path below itself. -/
theorem below?_self {p : Path} (hp : p.text ≠ "") : p.below? p = some ⟨""⟩ := by
  have hempty : slashed [] = "" := by decide
  rw [← hempty, ← below?_along hp fun _ h => absurd h List.not_mem_nil]
  rfl

/-- A path is the first one of its ancestors. -/
theorem exists_ancestors (p : Path) : ∃ above, p.ancestors = p :: above := by
  rw [ancestors]
  cases p.components.length with
  | zero => exact ⟨[], rfl⟩
  | succ n =>
      rw [ancestorsUpTo]
      split
      · exact ⟨[], rfl⟩
      · exact ⟨_, rfl⟩

end Path

end RpmRelease
