/-
  TOML documents.

  * `readValue`: a value, in which arrays and tables nest less than 80 deep.
  * `readStatements`: the lines of a document: entries and headers.
  * `Table.ofText`: the table that a document stands for, if it is well-formed.
-/
import RuleNet.Toml.Scalar

namespace RuleNet.Toml

variable {α : Type}

/-! ## Keys -/

/-- The length at which keys, and the depth at which values, are refused. -/
def maxDepth : Nat := 80

def isBareChar (c : Char) : Bool := c.isAlphanum || c == '-' || c == '_'

/-- One name of a key, with or without quotes. -/
def readName (cs : List Char) : Option (String × List Char) := match readLineString cs with
  | some found => some found
  | none =>
    let name := cs.takeWhile isBareChar
    if name.isEmpty then none else some (String.ofList name, cs.dropWhile isBareChar)

/-- Names with points between them; blanks around them do not matter. -/
def readNames (cs : List Char) : Option (Key × List Char) := do
  let (name, rest) ← readName (skipSpace cs)
  match skipSpace rest with
  | '.' :: more =>
    if more.length < cs.length then
      let (key, rest) ← readNames more
      some (⟨name :: key.parents, key.name⟩, rest)
    else none
  | rest => some (⟨[], name⟩, rest)
termination_by cs.length

/-- A key. -/
def readKey (cs : List Char) : Option (Key × List Char) := do
  let (key, rest) ← readNames cs
  if key.path.length < maxDepth then some (key, rest) else none

/-! ## Values -/

/-- A key and its value. -/
def readPair (value : Reader Node) (cs : List Char) : Option ((Key × Node) × List Char) := do
  let (key, rest) ← readKey cs
  match rest with
  | '=' :: rest => do
    let (node, rest) ← value (skipSpace rest)
    some ((key, node), rest)
  | _ => none

/-- The items of an array, up to its closing bracket. A comma may follow the last one. -/
def readItems (item : Reader α) (cs : List Char) : Option (List α × List Char) :=
  match skipGaps cs with
  | ']' :: rest => some ([], rest)
  | start => do
    let (x, rest) ← item start
    match skipGaps rest with
    | ']' :: rest => some ([x], rest)
    | ',' :: more =>
      if more.length < cs.length then
        let (xs, rest) ← readItems item more
        some (x :: xs, rest)
      else none
    | _ => none
termination_by cs.length

/-- The entries of a table that is written as a value, up to its closing brace. -/
def readPairs (pair : Reader α) (cs : List Char) : Option (List α × List Char) := do
  let (x, rest) ← pair cs
  match skipSpace rest with
  | '\x7d' :: rest => some ([x], rest)
  | ',' :: more =>
    if more.length < cs.length then
      let (xs, rest) ← readPairs pair more
      some (x :: xs, rest)
    else none
  | _ => none
termination_by cs.length

/-- A table that is written as a value, after its opening brace. -/
def readTable (value : Reader Node) (cs : List Char) : Option (Node × List Char) :=
  match skipSpace cs with
  | '\x7d' :: rest => some (.table .value [], rest)
  | start => do
    let (pairs, rest) ← readPairs (readPair value) start
    let table ← Table.ofEntries pairs
    some (.table .value table, rest)

/-- A value that holds no other. -/
def readScalar (cs : List Char) : Option (Node × List Char) := match cs with
  | '"' :: _ => (readString cs).map fun (s, rest) => (.text s, rest)
  | '\'' :: _ => (readString cs).map fun (s, rest) => (.text s, rest)
  | _ => readWord cs

/-- A value in which arrays and tables nest no deeper than `depth`. -/
def readValue : Nat → Reader Node
  | 0, cs => readScalar cs
  | depth + 1, cs => match cs with
    | '[' :: rest =>
      (readItems (readValue depth) rest).map fun (items, rest) => (.array items, rest)
    | '\x7b' :: rest => readTable (readValue depth) rest
    | _ => readScalar cs

/-! ## Statements -/

/-- A statement of a document. -/
inductive Statement where
  | entry (key : Key) (value : Node)
  /-- The header of a table. -/
  | table (key : Key)
  /-- The header of one of several tables. -/
  | item (key : Key)

/-- A statement up to the end of its line. -/
def readStatement (cs : List Char) : Option (Statement × List Char) := match cs with
  | '[' :: '[' :: rest => do
    let (key, rest) ← readKey rest
    match rest with
    | ']' :: ']' :: rest => some (.item key, rest)
    | _ => none
  | '[' :: rest => do
    let (key, rest) ← readKey rest
    match rest with
    | ']' :: rest => some (.table key, rest)
    | _ => none
  | _ => do
    let ((key, node), rest) ← readPair (readValue (maxDepth - 1)) cs
    some (.entry key node, rest)

/-- The statements of a document, each on a line of its own. -/
def readStatements (cs : List Char) : Option (List Statement) :=
  match skipGaps cs with
  | [] => some []
  | start => do
    let (statement, rest) ← readStatement start
    let rest ← endLine rest
    if rest.length < cs.length then
      let statements ← readStatements rest
      some (statement :: statements)
    else none
termination_by cs.length

/-! ## Documents -/

namespace Table

/-- What statements have built up, and the path of the header that entries now belong to. -/
abbrev Draft := Table × List String

/-- Carry out one statement. -/
def apply (draft : Draft) : Statement → Option Draft
  | .entry key node =>
    let put (_ : Origin) (table : Table) : Option Table := table.put key node
    (change false put draft.2 .header draft.1).map fun table => (table, draft.2)
  | .table key => (draft.1.openTable key).map fun table => (table, key.path)
  | .item key => (draft.1.openItem key).map fun table => (table, key.path)

/-- The table of a document. A mark of the byte order in front is passed over. -/
def ofText (text : String) : Option Table := do
  let cs := match text.toList with
    | '\ufeff' :: rest => rest
    | cs => cs
  let statements ← readStatements cs
  let draft ← statements.foldlM apply (([], []) : Draft)
  some draft.1

end Table

end RuleNet.Toml
