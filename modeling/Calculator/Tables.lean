import Calculator.SymbolTable

/-!
# Collections of tables

A collection holds symbol tables under numbers, and snapshots of them that are kept. A copy of a
table joins the collection.

* `SymbolTable.Edit`: a change of a table, and `SymbolTable.edit`, the table after it.
* `SymbolTable.copy`: a table made up anew from the entries of another.
* `Tables.execute`: one command on one table.
* `Tables.executeAll`: commands in a row.
-/

namespace Calculator

namespace SymbolTable

variable {T : Type}

/-- A change of a table. -/
inductive Edit (T : Type)
  | set (name : Text) (value : T)
  | erase (name : Text)
  | clear

/-- The table after a change. -/
def edit (t : SymbolTable T) : Edit T → SymbolTable T
  | .set name value => t.insert name value
  | .erase name => t.erase name
  | .clear => empty

/-- A table with the same entries, one put in after the other. -/
def copy (t : SymbolTable T) : SymbolTable T := ofList t.entries

@[simp] theorem copy_eq (t : SymbolTable T) : t.copy = t := t.insertAll_entries

end SymbolTable

/-- What can be asked of a table. -/
inductive TableCommand (T : Type)
  | get (name : Text)
  /-- Like `get`, but a missing name is no error. -/
  | lookup (name : Text)
  | has (name : Text)
  | edit (change : SymbolTable.Edit T)
  | size
  | list
  /-- Keeps the entries of the moment. -/
  | snapshot
  /-- Looks at kept entries. -/
  | view (snapshot : Nat)
  | clone

/-- The answer to a command. -/
inductive TableReply (T : Type)
  | result (r : Except Fault T)
  | found (value : Option T)
  | flag (b : Bool)
  | done
  | size (n : Nat)
  | entries (list : List (Text × T))
  /-- The number under which a snapshot is kept. -/
  | snapshot (index : Nat)
  /-- The number of a new table. -/
  | table (index : Nat)
  /-- There is no table, or no snapshot, of the number. -/
  | missing

/-- Tables in use and kept snapshots. -/
structure Tables (T : Type) where
  live : List (SymbolTable T)
  snapshots : List (SymbolTable T)

namespace Tables

variable {T : Type}

/-- A collection of one table that the pairs make up. -/
def start (initial : List (Text × T)) : Tables T := ⟨[.ofList initial], []⟩

/-- The answer to a change of a table. A name that is to be erased may be missing. -/
def acknowledge (t : SymbolTable T) : SymbolTable.Edit T → TableReply T
  | .set _ value => .result (.ok value)
  | .erase name => .flag (t.contains name)
  | .clear => .done

/-- One command on a table of the collection. -/
def executeOn (s : Tables T) (index : Nat) (t : SymbolTable T) :
    TableCommand T → TableReply T × Tables T
  | .get name => (.result (t.read name), s)
  | .lookup name => (.found (t.get? name), s)
  | .has name => (.flag (t.contains name), s)
  | .edit change => (acknowledge t change, { s with live := s.live.set index (t.edit change) })
  | .size => (.size t.size, s)
  | .list => (.entries t.entries, s)
  | .snapshot => (.snapshot s.snapshots.length, { s with snapshots := s.snapshots ++ [t.copy] })
  | .view snapshot =>
    match s.snapshots[snapshot]? with
    | some kept => (.entries kept.entries, s)
    | none => (.missing, s)
  | .clone => (.table s.live.length, { s with live := s.live ++ [t.copy] })

/-- One command on the table of a number. -/
def execute (s : Tables T) (index : Nat) (command : TableCommand T) : TableReply T × Tables T :=
  match s.live[index]? with
  | some t => s.executeOn index t command
  | none => (.missing, s)

/-- Commands in a row, each with the number of its table. -/
def executeAll (s : Tables T) : List (Nat × TableCommand T) → List (TableReply T) × Tables T
  | [] => ([], s)
  | (index, command) :: rest =>
    let (reply, s) := s.execute index command
    let (replies, s) := s.executeAll rest
    (reply :: replies, s)

end Tables

end Calculator
