import Daybook.Toml.Scalar

/-!
# Tables of a TOML file

What a file has set so far, as a list of places with what stands there. A place is reached from
the top by names and, within a list of tables, by positions.

A table may be opened once by a header, and tables on the way to it come into being with it.
Dotted names may add to a table that dotted names made, and to no other; nothing may be set
twice.
-/

namespace Daybook.Toml

/-- A step towards a place. -/
inductive Step where
  | name (s : String)
  | position (n : Nat)
deriving DecidableEq, Repr

/-- The way to a place from the top. -/
abbrev Place := List Step

/-- What stands at a place. -/
inductive Node where
  | value (v : Value)
  /-- A table that a header opened. -/
  | opened
  /-- A table that is only on the way to one that a header opened. -/
  | passed
  /-- A table that dotted names made. -/
  | dotted
  /-- A list of that many tables. -/
  | tables (count : Nat)
deriving DecidableEq, Repr

/-- The places that are taken. -/
abbrev Tables := List (Place × Node)

namespace Tables

/-- What stands at a place. -/
def node? (t : Tables) (p : Place) : Option Node :=
  t.lookup p

/-- The tables with a node at a place. -/
def set (t : Tables) (p : Place) (n : Node) : Tables :=
  (p, n) :: t.filter fun entry => entry.1 ≠ p

/-- The place that names lead to from another place. Tables that are missing on the way are
made: with `byDots` as tables that dotted names made, otherwise as tables passed through. -/
def descend (byDots : Bool) (t : Tables) (p : Place) : List String → Option (Tables × Place)
  | [] => some (t, p)
  | name :: rest =>
    let here := p ++ [.name name]
    match t.node? here with
    | none => descend byDots (t.set here (if byDots then .dotted else .passed)) here rest
    | some (.value _) => none
    | some (.tables count) => descend byDots t (here ++ [.position (count - 1)]) rest
    | some .opened => if byDots then none else descend byDots t here rest
    | some .passed | some .dotted => descend byDots t here rest

/-- Sets a value under a dotted name within the table at a place. -/
def setValue (t : Tables) (p : Place) (path : List String) (name : String) (v : Value) :
    Option Tables := do
  let (t, p) ← t.descend true p path
  let here := p ++ [.name name]
  -- a table that a header passed through is not to be added to by dotted names
  if path ≠ [] ∧ t.node? p ≠ some .dotted then none
  else if (t.node? here).isSome then none
  else some (t.set here (.value v))

/-- Opens the table under a dotted name, and gives its place. -/
def openTable (t : Tables) (path : List String) (name : String) : Option (Tables × Place) := do
  let (t, p) ← t.descend false [] path
  let here := p ++ [.name name]
  match t.node? here with
  | none | some .passed => some (t.set here .opened, here)
  | _ => none

/-- Adds a table to the list of tables under a dotted name, and gives its place. -/
def addTable (t : Tables) (path : List String) (name : String) : Option (Tables × Place) := do
  let (t, p) ← t.descend false [] path
  let here := p ++ [.name name]
  match t.node? here with
  | none => some (t.set here (.tables 1), here ++ [.position 0])
  | some (.tables count) => some (t.set here (.tables (count + 1)), here ++ [.position count])
  | _ => none

/-- The value under a name at the top. Of a table or a list of tables only the kind is told. -/
def topValue? (t : Tables) (name : String) : Option Value :=
  (t.node? [.name name]).map fun
    | .value v => v
    | .tables _ => .list
    | .opened | .passed | .dotted => .table

end Tables

end Daybook.Toml
