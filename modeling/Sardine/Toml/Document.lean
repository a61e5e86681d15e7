import Sardine.Toml.Statement
import Std.Data.HashSet

/-! What the statements of a TOML file build: a tree of tables.
A table that is only named on the way to another is implicit and may still be given a header of its
own, once; every other key is assigned once. -/
namespace Sardine.Toml

inductive Node
  | leaf (value : Value)
  | array (items : List Value)
  | table (entries : List (Bytes × Node))
  | tables (all : List (List (Bytes × Node)))

abbrev Entries := List (Bytes × Node)

def Value.isArray : Value → Bool
  | .array _ => true
  | _ => false

def Value.isInlineTable : Value → Bool
  | .inlineTable _ => true
  | _ => false

/-- The document so far: the tree, the paths of implicit tables, the paths that hold arrays of
values, the table in which keys are set, and the paths at which the inline table being read and the
tree hold one and the same table. -/
structure Document where
  root : Entries := []
  implicits : Std.HashSet Key := {}
  arrays : Std.HashSet Key := {}
  context : Key := []
  shared : List Key := []

namespace Entries

def get? : Entries → Bytes → Option Node
  | [], _ => none
  | entry :: rest, name => if entry.1 = name then some entry.2 else get? rest name

def put (name : Bytes) (node : Node) : Entries → Entries
  | [] => [(name, node)]
  | entry :: rest => if entry.1 = name then (name, node) :: rest else entry :: put name node rest

/-- Changes the table at a path. In an array of tables the last one counts. -/
def modify (change : Entries → Option Entries) : Key → Entries → Option Entries
  | [], entries => change entries
  | part :: rest, entries =>
    match get? entries part with
    | some (.table sub) => (modify change rest sub).map fun sub => put part (.table sub) entries
    | some (.tables all) =>
      (modify change rest (all.getLast?.getD [])).map fun sub =>
        put part (.tables (all.dropLast ++ [sub])) entries
    | _ => none

/-- The entries with tables along a path, and the paths of those that had to be made. -/
def establish : Key → Entries → Option (Entries × List Key)
  | [], entries => some (entries, [])
  | part :: rest, entries =>
    match get? entries part with
    | none =>
      (establish rest []).map fun r =>
        (put part (.table r.1) entries, [part] :: r.2.map (part :: ·))
    | some (.table sub) =>
      (establish rest sub).map fun r => (put part (.table r.1) entries, r.2.map (part :: ·))
    | some (.tables all) =>
      (establish rest (all.getLast?.getD [])).map fun r =>
        (put part (.tables (all.dropLast ++ [r.1])) entries, r.2.map (part :: ·))
    | _ => none

def lookup? : Key → Entries → Option Node
  | [], entries => some (.table entries)
  | part :: rest, entries =>
    match get? entries part with
    | some (.table sub) => lookup? rest sub
    | some (.tables all) => if rest.isEmpty then some (.tables all)
      else lookup? rest (all.getLast?.getD [])
    | some node => if rest.isEmpty then some node else none
    | none => none

def table? : Key → Entries → Option Entries
  | [], entries => some entries
  | part :: rest, entries =>
    match get? entries part with
    | some (.table sub) => table? rest sub
    | _ => none

/-- Sets a dotted key. What is missing on the way becomes a table; what is there must be one. -/
def setPath (name : Bytes) (node : Node) : Key → Entries → Option Entries
  | [], entries => some (put name node entries)
  | part :: rest, entries =>
    match get? entries part with
    | none => (setPath name node rest []).map fun sub => put part (.table sub) entries
    | some (.table sub) => (setPath name node rest sub).map fun sub => put part (.table sub) entries
    | some _ => none

end Entries

namespace Document

def addImplicit (path : Key) (doc : Document) : Document :=
  { doc with implicits := doc.implicits.insert path }

def dropImplicit (path : Key) (doc : Document) : Document :=
  { doc with implicits := doc.implicits.erase path }

def noteKind (name : Bytes) (isArray : Bool) (doc : Document) : Document :=
  let path := if name.isEmpty then (if doc.context.isEmpty then [[]] else doc.context)
    else doc.context ++ [name]
  { doc with arrays := if isArray then doc.arrays.insert path else doc.arrays.erase path }

def holds (name : Bytes) (doc : Document) : Option Bool :=
  match Entries.lookup? doc.context doc.root with
  | some (.table entries) => some (Entries.get? entries name).isSome
  | some (.tables all) => some (Entries.get? (all.getLast?.getD []) name).isSome
  | _ => none

/-- Puts a node into the current table. What stood there before is no longer shared. -/
def putHere (name : Bytes) (node : Node) (doc : Document) : Option Document :=
  (Entries.modify (fun entries => some (Entries.put name node entries)) doc.context doc.root).map
    fun root =>
      { doc with
        root
        shared := doc.shared.filter fun path => !(doc.context ++ [name]).isPrefixOf path }

/-- Sets a key of the current table. A key that is there already must be implicit, and is explicit
from then on: an array is replaced, a table is kept. -/
def setValue (name : Bytes) (node : Node) (doc : Document) : Option Document :=
  let path := doc.context ++ [name]
  match doc.holds name with
  | none => none
  | some false => doc.putHere name node
  | some true =>
    if !doc.implicits.contains path then none
    else if doc.arrays.contains path then (doc.dropImplicit path).putHere name node
    else some (doc.dropImplicit path)

/-- Makes a path the current table; as a table in an array it is a new one. -/
def enter (path : Key) (inArray : Bool) (doc : Document) : Option Document :=
  let parents := path.dropLast
  let last := path.getLast?.getD []
  match Entries.establish parents doc.root with
  | none => none
  | some (root, made) =>
    let doc := { doc with root, implicits := doc.implicits.insertMany made, context := parents }
    let entered := if inArray then
        match Entries.lookup? path doc.root with
        | none => doc.putHere last (.tables [[]])
        | some (.tables all) => doc.putHere last (.tables (all ++ [[]]))
        | _ => none
      else doc.setValue last (.table [])
    entered.map fun doc => { doc with context := path }

def enterParents : Key → Document → Option Document
  | [], doc => some doc
  | part :: rest, doc =>
    let path := doc.context ++ [part]
    ((doc.addImplicit path).enter path false).bind (enterParents rest)

/-- The shared paths inside the current table, as seen from it. -/
def sharedHere (doc : Document) : List Key :=
  doc.shared.filterMap fun path => doc.context.isPrefixOf? path

def tableAt? (path : Key) (doc : Document) : Option Entries :=
  match Entries.lookup? (doc.context ++ path) doc.root with
  | some (.table entries) => some entries
  | _ => none

/-- The inline table being read, with what the tree holds at the shared paths. -/
def refresh (table : Entries) (doc : Document) : Entries :=
  doc.sharedHere.foldl
    (fun table path =>
      match Entries.table? path table, doc.tableAt? path with
      | some _, some entries => (Entries.modify (fun _ => some entries) path table).getD table
      | _, _ => table)
    table

/-- The tree, with what the inline table being read holds at the shared paths. -/
def restore (table : Entries) (doc : Document) : Document :=
  { doc with
    root := doc.sharedHere.foldl
      (fun root path =>
        match Entries.table? path table with
        | some entries =>
          (Entries.modify (fun _ => some entries) (doc.context ++ path) root).getD root
        | none => root)
      doc.root }

/-- Sets a field of the inline table being read, whose tables may be shared with the tree. -/
def setField (key : Key) (node : Node) (table : Entries) (doc : Document) :
    Option (Entries × Document) :=
  (Entries.setPath (key.getLast?.getD []) node key.dropLast (doc.refresh table)).map fun table =>
    (table, doc.restore table)

/-- Sets the value that has been read at a key of the current table. An inline table that takes the
place of an implicit array is from then on the one in the tree. -/
def finishValue (name : Bytes) (v : Value) (node : Node) (doc : Document) : Option Document :=
  let path := doc.context ++ [name]
  let isShared := v.isInlineTable && doc.arrays.contains path
  (doc.setValue name node).map fun after =>
    noteKind name v.isArray
      (if isShared then { after with shared := path :: after.shared } else after)

mutual

/-- Visits a value that is being set at `name` in the current table: inline tables in it take their
place in the tree. The result is the node for the value by itself. -/
def visit (fuel : Nat) (name : Bytes) (inArray : Bool) (v : Value) (doc : Document) :
    Option (Node × Document) :=
  match fuel, v with
  | 0, _ => none
  | fuel + 1, .array items =>
    (visitItems fuel name items (doc.noteKind name true)).map fun after => (.array items, after)
  | fuel + 1, .inlineTable fields =>
    let path := doc.context ++ [name]
    (((doc.addImplicit path).enter path inArray).bind (visitFields fuel fields [])).map
      fun r => (.table r.1, { r.2 with context := doc.context })
  | _ + 1, v => some (.leaf v, doc)

def visitItems (fuel : Nat) (name : Bytes) (items : List Value) (doc : Document) :
    Option Document :=
  match fuel, items with
  | 0, _ => none
  | _ + 1, [] => some doc
  | fuel + 1, item :: rest =>
    (visit fuel name true item doc).bind fun r => visitItems fuel name rest r.2

/-- Visits the fields of an inline table, behind those in `table`. -/
def visitFields (fuel : Nat) (fields : List (Key × Value)) (table : Entries) (doc : Document) :
    Option (Entries × Document) :=
  match fuel, fields with
  | 0, _ => none
  | _ + 1, [] => some (table, doc)
  | fuel + 1, field :: rest =>
    (assignWith fuel field.1 field.2 doc).bind fun r =>
      (setField field.1 r.1 table { r.2 with context := doc.context }).bind fun r =>
        visitFields fuel rest r.1 r.2

/-- Sets a dotted key of the current table. The result is the node for its value by itself. -/
def assignWith (fuel : Nat) (key : Key) (v : Value) (doc : Document) : Option (Node × Document) :=
  match fuel with
  | 0 => none
  | fuel + 1 =>
    let name := key.getLast?.getD []
    ((enterParents key.dropLast doc).bind (visit fuel name false v)).bind fun r =>
      (r.2.finishValue name v r.1).map fun doc => (r.1, doc)

end

def apply (fuel : Nat) (st : Statement) (doc : Document) : Option Document :=
  match st with
  | .table key => (doc.enter key false).map (noteKind [] false)
  | .tableInArray key => (doc.enter key true).map (noteKind [] false)
  | .assign key v =>
    (assignWith fuel key v doc).map fun r => { r.2 with context := doc.context, shared := [] }

def ofStatements (fuel : Nat) (sts : List Statement) : Option Document :=
  sts.foldlM (fun doc st => doc.apply fuel st) {}

def ofFile (file : Bytes) : Option Document :=
  (parseFile file).bind (ofStatements (4 * file.length + 4))

end Document

end Sardine.Toml
