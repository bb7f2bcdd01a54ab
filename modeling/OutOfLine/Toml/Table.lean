import OutOfLine.Value

/-!
Tables under construction. A table may be named by a header only once, and dotted keys may only
add to tables that dotted keys have made.
-/

namespace OutOfLine.Toml

inductive Origin where
  /-- Named by a header of its own. -/
  | header
  /-- Part of the path of another header. -/
  | path
  /-- Part of a dotted key. -/
  | dottedKey
deriving DecidableEq

inductive Node where
  | leaf (value : Value)
  | table (origin : Origin) (entries : List (String × Node))
  /-- The rows of an array of tables, the last one first. -/
  | rows (rows : List (List (String × Node)))

abbrev Entries := List (String × Node)

namespace Entries

def replace (key : String) (node : Node) (entries : Entries) : Entries :=
  entries.map fun (name, old) => if name = key then (name, node) else (name, old)

/-- Changes the entries at the end of a path. Missing tables on the way are made, and an array of
tables stands for its last row. -/
def update (missing : Origin) (change : Origin → Entries → Option Entries) :
    (path : List String) → Origin → Entries → Option Entries
  | [], origin, entries => change origin entries
  | key :: path, _, entries =>
      match entries.lookup key with
      | none => do
          let child ← update missing change path missing []
          return entries ++ [(key, .table missing child)]
      | some (.leaf _) => none
      | some (.rows []) => none
      | some (.rows (last :: others)) => do
          let last ← update missing change path .header last
          return replace key (.rows (last :: others)) entries
      | some (.table origin child) => do
          if missing = .dottedKey && origin = .header then
            none
          let child ← update missing change path origin child
          return replace key (.table origin child) entries

def insertNew (key : String) (value : Value) (entries : Entries) : Option Entries :=
  if (entries.lookup key).isSome then none else some (entries ++ [(key, .leaf value)])

/-- Sets the value of a key, which may be dotted. -/
def assign (parents : List String) (key : String) (value : Value) (entries : Entries) :
    Option Entries :=
  update .dottedKey (fun origin entries =>
    if parents.isEmpty || origin = .dottedKey then insertNew key value entries else none)
    parents .header entries

def openTable (parents : List String) (key : String) (entries : Entries) : Option Entries :=
  update .path (fun _ entries =>
    match entries.lookup key with
    | none => some (entries ++ [(key, .table .header [])])
    | some (.table .path child) => some (replace key (.table .header child) entries)
    | some _ => none)
    parents .header entries

def openRow (parents : List String) (key : String) (entries : Entries) : Option Entries :=
  update .path (fun _ entries =>
    match entries.lookup key with
    | none => some (entries ++ [(key, .rows [[]])])
    | some (.rows rows) => some (replace key (.rows ([] :: rows)) entries)
    | some _ => none)
    parents .header entries

end Entries

namespace Node

mutual

def toValue : Node → Value
  | .leaf value => value
  | .table _ entries => .object (entriesToFields entries)
  | .rows found => .array (rowsToItems [] found)

def entriesToFields : List (String × Node) → List (String × Value)
  | [] => []
  | (key, node) :: others => (key, node.toValue) :: entriesToFields others

/-- Puts the rows, which come last one first, before the items in `items`. -/
def rowsToItems (items : List Value) : List (List (String × Node)) → List Value
  | [] => items
  | row :: others => rowsToItems (.object (entriesToFields row) :: items) others

end

end Node

def Entries.toValue (entries : Entries) : Value :=
  .object (Node.entriesToFields entries)

end OutOfLine.Toml
