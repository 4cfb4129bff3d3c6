import RpmRelease.Toml.Value

/-!
# Tables while a document is read

A table comes into being in one of three ways: a header names it, a header names something below it,
or a key with dots leads through it.  It may be named by a header once, and only when keys with dots
have not made it.  Keys with dots reach only into tables that they have made.  Headers in double
brackets add a table to an array each time.
-/

set_option autoImplicit false

namespace RpmRelease.Toml

/-- How a table has come into being. -/
inductive Origin
  /-- a header named it, or the document began -/
  | named
  /-- a header named something below it -/
  | implied
  /-- a key with dots led through it -/
  | dotted
deriving DecidableEq, Repr

/-- What a key stands for. -/
inductive Entry
  | value (v : Value)
  | table (origin : Origin) (entries : List (String × Entry))
  | tables (elements : List (List (String × Entry)))

/-- The entries of a table. -/
abbrev Entries := List (String × Entry)

namespace Entries

/-- Changes what a key stands for, or gives it a meaning. -/
def alter (key : String) (f : Option Entry → Except Defect Entry) :
    Entries → Except Defect Entries
  | [] => do return [(key, ← f none)]
  | (k, entry) :: rest => do
    if k = key then return (k, ← f (some entry)) :: rest
    else return (k, entry) :: (← alter key f rest)

/-- Changes the last of some tables. -/
def alterLast (f : Entries → Except Defect Entries) :
    List Entries → Except Defect (List Entries)
  | [] => do return [← f []]
  | [entries] => do return [← f entries]
  | entries :: rest => do return entries :: (← alterLast f rest)

/-- Changes the entries of the table that a header names; of an array of tables, those of the last
one. -/
def alterAt (f : Entries → Except Defect Entries) :
    List String → Entries → Except Defect Entries
  | [] => f
  | key :: path => alter key fun
    | none => do return .table .implied (← alterAt f path [])
    | some (.table origin entries) => do return .table origin (← alterAt f path entries)
    | some (.tables elements) => do return .tables (← alterLast (alterAt f path) elements)
    | some (.value _) => .error (.notTable key)

/-- Gives a key a value. -/
def assignKey (key : String) (v : Value) : Entries → Except Defect Entries :=
  alter key fun
    | none => .ok (.value v)
    | some _ => .error (.duplicateKey key)

/-- Gives a key behind others a value.  `made` tells whether a key with dots has made this table. -/
def assignBehind (made : Bool) (last : String) (v : Value) :
    List String → Entries → Except Defect Entries
  | [] => fun entries => if made then assignKey last v entries else .error (.duplicateKey last)
  | key :: path => alter key fun
    | none => do return .table .dotted (← assignBehind true last v path [])
    | some (.table .named _) => .error (.duplicateKey key)
    | some (.table origin entries) => do
      return .table origin (← assignBehind (origin == .dotted) last v path entries)
    | some (.tables elements) => do
      return .tables (← alterLast (assignBehind false last v path) elements)
    | some (.value _) => .error (.notTable key)

/-- Gives a key of one or more parts a value. -/
def assign (key : List String) (v : Value) (entries : Entries) : Except Defect Entries :=
  match key.reverse with
  | [] => .ok entries
  | [only] => assignKey only v entries
  | last :: path => assignBehind false last v path.reverse entries

/-- Begins the table that a header names. -/
def openTable (header : List String) : Entries → Except Defect Entries :=
  alterAt (fun entries =>
    match header.getLast? with
    | none => .ok entries
    | some last => entries.alter last fun
      | none => .ok (.table .named [])
      | some (.table .implied entries) => .ok (.table .named entries)
      | some _ => .error (.duplicateKey last)) header.dropLast

/-- Adds a table to the array that a header in double brackets names. -/
def openElement (header : List String) : Entries → Except Defect Entries :=
  alterAt (fun entries =>
    match header.getLast? with
    | none => .ok entries
    | some last => entries.alter last fun
      | none => .ok (.tables [[]])
      | some (.tables elements) => .ok (.tables (elements ++ [[]]))
      | some _ => .error (.duplicateKey last)) header.dropLast

end Entries

mutual

/-- The value of an entry. -/
def Entry.toValue : Entry → Value
  | .value v => v
  | .table _ entries => .table (Entries.toValues entries)
  | .tables elements => .array (Entries.toTables elements)

/-- The values of the entries of a table. -/
def Entries.toValues : List (String × Entry) → List (String × Value)
  | [] => []
  | (key, entry) :: rest => (key, entry.toValue) :: Entries.toValues rest

/-- Tables as values. -/
def Entries.toTables : List (List (String × Entry)) → List Value
  | [] => []
  | entries :: rest => .table (Entries.toValues entries) :: Entries.toTables rest

end

end RpmRelease.Toml
