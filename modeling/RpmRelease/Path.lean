import RpmRelease.Text.Blank

/-!
# Paths as they are written

A path is a text.  Slashes cut it into segments; an empty segment and a dot that does not begin a
relative path mean nothing, and the segments that mean something are the components of the path.
Two spellings with the same components are the same path for every comparison here, while the text
itself is what programs and messages get to see.

`join` puts an absolute right side in the place of the left side.
-/

set_option autoImplicit false

namespace RpmRelease

/-- A path as it is written. -/
structure Path where
  text : String
deriving DecidableEq, Repr, Inhabited

namespace Path

/-- One meaningful part of a path. -/
inductive Component
  /-- the slash that an absolute path begins with -/
  | root
  /-- a dot at the beginning of a relative path -/
  | current
  /-- two dots -/
  | parent
  /-- a name -/
  | normal (name : String)
deriving DecidableEq, Repr

namespace Component

/-- The place of a kind of component in the order of paths. -/
def rank : Component → Nat
  | root => 0
  | current => 1
  | parent => 2
  | normal _ => 3

/-- The order of components: by kind, names by code point. -/
def compare : Component → Component → Ordering
  | normal a, normal b => Ord.compare a b
  | a, b => Ord.compare a.rank b.rank

/-- The component as a path of its own. -/
def path : Component → Path
  | root => ⟨"/"⟩
  | current => ⟨"."⟩
  | parent => ⟨".."⟩
  | normal name => ⟨name⟩

end Component

/-- Whether a path begins at the root. -/
def isAbsolute (p : Path) : Bool :=
  p.text.toList.head? == some '/'

/-- A segment between slashes, with the word whether it is a component. -/
structure Segment where
  text : List Char
  counts : Bool

/-- The component that a segment writes. -/
def Segment.component (s : Segment) : Component :=
  if s.text = ['.'] then .current
  else if s.text = ['.', '.'] then .parent
  else .normal (String.ofList s.text)

/-- The segments behind the root.  A dot counts only at the beginning of a relative path. -/
def segments (p : Path) : List Segment :=
  let absolute := p.isAbsolute
  let texts := Text.splitWhen (· == '/') (if absolute then p.text.toList.tail else p.text.toList)
  let inner (text : List Char) : Segment := ⟨text, !text.isEmpty && text != ['.']⟩
  match texts with
  | [] => []
  | first :: more =>
    (if absolute then inner first else ⟨first, !first.isEmpty⟩) :: more.map inner

/-- The components of a path. -/
def components (p : Path) : List Component :=
  (if p.isAbsolute then [.root] else []) ++
    (p.segments.filter (·.counts)).map Segment.component

/-- Segments without those at the end that do not count. -/
def trimSegments (segments : List Segment) : List Segment :=
  (segments.reverse.dropWhile (!·.counts)).reverse

/-- The path of some segments, behind the root or relative. -/
def ofSegments (absolute : Bool) (segments : List Segment) : Path :=
  let body := List.intercalate ['/'] (segments.map Segment.text)
  ⟨String.ofList (if absolute then '/' :: body else body)⟩

/-- A path followed by another one.  An absolute second path stands alone. -/
def join (p q : Path) : Path :=
  if q.isAbsolute then q
  else if p.text.isEmpty || p.text.toList.getLast? == some '/' then ⟨p.text ++ q.text⟩
  else ⟨p.text ++ "/" ++ q.text⟩

/-- The path that components write one after the other. -/
def ofComponents (components : List Component) : Path :=
  components.foldl (fun p c => p.join c.path) ⟨""⟩

/-- The path without its last component; nothing for the root and for the empty path. -/
def parent? (p : Path) : Option Path :=
  match (trimSegments p.segments).reverse with
  | [] => none
  | _ :: front => some (ofSegments p.isAbsolute (trimSegments front.reverse))

/-- A path and at most `n` of the paths above it, the nearest first. -/
def ancestorsUpTo : Nat → Path → List Path
  | 0, p => [p]
  | n + 1, p =>
    match p.parent? with
    | none => [p]
    | some above => p :: ancestorsUpTo n above

/-- A path and all the paths above it, the nearest first. -/
def ancestors (p : Path) : List Path :=
  ancestorsUpTo p.components.length p

/-- The last component, if it is a name. -/
def fileName? (p : Path) : Option String :=
  match p.components.getLast? with
  | some (.normal name) => some name
  | _ => none

/-- What follows the last dot of a file name that has something before that dot. -/
def extension? (p : Path) : Option String := do
  let name ← p.fileName?
  let reversed := name.toList.reverse
  let ending := reversed.takeWhile (· != '.')
  match reversed.drop ending.length with
  | _ :: _ :: _ => some (String.ofList ending.reverse)
  | _ => none

/-- Whether two paths have the same components. -/
def same (p q : Path) : Bool :=
  p.components == q.components

/-- Whether the components of a path begin with those of another one. -/
def startsWith (p base : Path) : Bool :=
  base.components.isPrefixOf p.components

/-- Segments without the first `n` that count, and without those before the next that counts. -/
def dropSegments : Nat → List Segment → List Segment
  | _, [] => []
  | 0, s :: rest => if s.counts then s :: rest else dropSegments 0 rest
  | n + 1, s :: rest => if s.counts then dropSegments n rest else dropSegments (n + 1) rest

/-- The path below another one that its components begin with. -/
def below? (p base : Path) : Option Path :=
  if p.startsWith base then
    let n := base.components.length
    -- the root is a component without a segment
    let n := if p.isAbsolute then n - 1 else n
    some (ofSegments false (trimSegments (dropSegments n p.segments)))
  else none

/-- The order of paths: component by component, and a path before every path below it. -/
def compareComponents : List Component → List Component → Ordering
  | [], [] => .eq
  | [], _ :: _ => .lt
  | _ :: _, [] => .gt
  | a :: as, b :: bs => (a.compare b).then (compareComponents as bs)

/-- Whether a path comes no later than another one. -/
def precedes (p q : Path) : Bool :=
  compareComponents p.components q.components != .gt

/-- Paths in order; paths with the same components keep theirs. -/
def sort (paths : List Path) : List Path :=
  paths.mergeSort precedes

end Path

end RpmRelease
