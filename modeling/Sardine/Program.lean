import Sardine.Opcode

/-! Programs: a sequence of instructions with a table of labels.
The place of an instruction in the sequence is its address. -/
namespace Sardine

/-- One instruction. The label is where a jump goes or what a `NOP` defines; the argument is the
address that `PTR` selects. -/
structure Instruction where
  op : Opcode
  label : Bytes := []
  arg : Int := 0
  deriving DecidableEq, Repr

def Instruction.text (ins : Instruction) : Bytes :=
  if ins.op = .setPointer then ins.op.text ++ Bytes.space :: Decimal.ofInt ins.arg
  else if ins.op.isJump then ins.op.text ++ Bytes.space :: ins.label
  else ins.op.text

abbrev Labels := List (Bytes × Int)

namespace Labels

def address? : Labels → Bytes → Option Int
  | [], _ => none
  | entry :: rest, name => if entry.1 = name then some entry.2 else address? rest name

def insert (name : Bytes) (address : Int) : Labels → Labels
  | [] => [(name, address)]
  | entry :: rest =>
    if entry.1 = name then (name, address) :: rest else entry :: insert name address rest

theorem address?_insert (labels : Labels) (name other : Bytes) (address : Int) :
    address? (insert name address labels) other =
      if name = other then some address else address? labels other := by
  induction labels with
  | nil => simp [insert, address?]
  | cons entry rest ih => grind [insert, address?]

/-- A table in which the last of several addresses for one name counts. -/
def ofList (entries : List (Bytes × Int)) : Labels :=
  entries.foldl (fun labels entry => insert entry.1 entry.2 labels) []

def sorted (labels : Labels) : List (Bytes × Int) :=
  labels.mergeSort fun a b => Bytes.before a.1 b.1

end Labels

structure Program where
  code : Array Instruction
  labels : Labels
  deriving DecidableEq, Repr

namespace Program

def size (program : Program) : Nat := program.code.size

/-- Why a jump cannot be resolved. -/
inductive Fault
  | undefinedLabel (pc : Nat) (ins : Instruction)
  | labelOutside (pc : Nat) (ins : Instruction) (address : Int)
  deriving DecidableEq, Repr

def Fault.message : Fault → Bytes
  | undefinedLabel pc ins =>
    Decimal.digits pc ++ utf8 ": " ++ ins.op.text ++ utf8 ": undefined label " ++ ins.label
  | labelOutside pc ins address =>
    Decimal.digits pc ++ utf8 ": " ++ ins.op.text ++ utf8 ": label " ++ ins.label ++
      utf8 " points outside the program (" ++ Decimal.ofInt address ++ utf8 ")"

def faultAt? (program : Program) (pc : Nat) (ins : Instruction) : Option Fault :=
  if ins.op.isJump then
    match program.labels.address? ins.label with
    | none => some (.undefinedLabel pc ins)
    | some address =>
      if address < 0 ∨ program.size ≤ address then some (.labelOutside pc ins address) else none
  else none

/-- The first jump that does not lead into the program. -/
def fault? (program : Program) : Option Fault :=
  program.code.toList.zipIdx.findSome? fun entry => program.faultAt? entry.2 entry.1

/-- Where a jump to a label goes; a label without an address leads to the start. -/
def target (program : Program) (label : Bytes) : Int := (program.labels.address? label).getD 0

end Program

end Sardine
