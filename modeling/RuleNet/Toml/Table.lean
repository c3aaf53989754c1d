/-
  Tables of a TOML document, as statements build them up.

  How a table came about decides what may still be added to it:
  * a table written out as a value is closed;
  * a table with a header of its own takes no second header, and nothing through dotted keys;
  * a table that only stands above the header of another one may still get its own header;
  * a table that dotted keys made can be extended by dotted keys, and gets no header.

  * `Table.put`: a value under a key; `Table.openTable`, `Table.openItem`: the table of a header.
-/
import RuleNet.Data.Entries
import RuleNet.Number.Binary64

namespace RuleNet.Toml

/-- How a table came about. -/
inductive Origin where
  | value
  | header
  /-- It stands above the header of another table. -/
  | implied
  | dottedKey
  deriving DecidableEq, Inhabited

/-- What can stand under a name. -/
inductive Node where
  | boolean (b : Bool)
  | integer (i : Int)
  | double (x : Binary64)
  | text (s : String)
  /-- A date, a time of day, or both, as it is written. -/
  | dateTime (s : String)
  | array (items : List Node)
  | table (origin : Origin) (entries : List (String × Node))
  /-- Tables with the same header in double brackets. -/
  | tables (items : List (List (String × Node)))
  deriving Inhabited

/-- A dotted key: the tables to go through, and the name in the last one. -/
structure Key where
  parents : List String
  name : String
  deriving DecidableEq

namespace Key

/-- All names of a key. -/
def path (key : Key) : List String := key.parents ++ [key.name]

end Key

abbrev Table := Entries Node

namespace Table

/-- Change the table at the end of a path, which may be refused. Tables that are missing on the way
    are made; of tables with the same header the path goes through the last one. -/
def change (dotted : Bool) (act : Origin → Table → Option Table) :
    List String → Origin → Table → Option Table
  | [], origin, table => act origin table
  | name :: path, _, table =>
    let changed : Option Node := match Entries.find? name table with
      | none =>
        let origin := if dotted then Origin.dottedKey else .implied
        (change dotted act path origin []).map (.table origin)
      | some (.table origin inner) =>
        if origin = .value ∨ (dotted ∧ origin = .header) then none
        else (change dotted act path origin inner).map (.table origin)
      | some (.tables items) => do
        let last ← items.getLast?
        (change dotted act path .header last).map fun last => .tables (items.dropLast ++ [last])
      | some _ => none
    changed.map fun node => Entries.insert name node table

/-- Put a value under a key. The name must be new, and a table that the key goes through must have
    been made by dotted keys. -/
def put (key : Key) (value : Node) (table : Table) : Option Table :=
  let act (origin : Origin) (inner : Table) : Option Table :=
    if (!key.parents.isEmpty && origin != .dottedKey) || Entries.contains key.name inner then none
    else some (Entries.insert key.name value inner)
  change true act key.parents .header table

/-- Change what is under the last name of a header. -/
def changeHeader (key : Key) (act : Option Node → Option Node) (table : Table) : Option Table :=
  change false (fun _ inner => (act (Entries.find? key.name inner)).map fun node =>
    Entries.insert key.name node inner) key.parents .header table

/-- Open the table of a header. -/
def openTable (key : Key) (table : Table) : Option Table :=
  table.changeHeader key fun node => match node with
    | none => some (.table .header [])
    | some (.table .implied inner) => some (.table .header inner)
    | some _ => none

/-- Open one more table of a header in double brackets. -/
def openItem (key : Key) (table : Table) : Option Table :=
  table.changeHeader key fun node => match node with
    | none => some (.tables [[]])
    | some (.tables items) => some (.tables (items ++ [[]]))
    | some _ => none

/-- The table of entries in order. -/
def ofEntries (entries : List (Key × Node)) : Option Table :=
  entries.foldlM (fun table entry => table.put entry.1 entry.2) []

end Table

end RuleNet.Toml
