import Sardine.Machine.Channels

/-! The machine: a program with a program counter, a pointer into a memory of cells, two channels,
and a trace that may be kept of what it does. -/
namespace Sardine

inductive Status
  | running
  | ended
  deriving DecidableEq, Repr

def Status.text : Status → String
  | running => "running"
  | ended => "ended"

/-- Messages about the execution. They are kept only if messages this detailed are wanted. -/
structure Trace where
  detailed : Bool
  messages : Array Bytes := #[]
  /-- What goes wrong when so many instructions have been counted and one more is announced. -/
  crash : Nat → Option Bytes := fun _ => none

structure Machine where
  program : Program
  pc : Int := 0
  ptr : Int := 0
  mem : Array Cell
  status : Status := .running
  count : Nat := 0
  channels : Channels := {}
  trace : Option Trace := none

namespace Machine

def defaultMemorySize : Nat := 2020

/-- The largest memory, in cells, that can be asked for without a crash. Up to it there is assumed
to be room. -/
def mostCells : Nat := Nat.pow 2 45

inductive Setting
  | input (input : Input)
  | output (output : Output)
  | memorySize (size : Int)
  | trace (trace : Trace)

/-- Makes one setting. A new memory is all zero. -/
def set (m : Machine) : Setting → Outcome Machine
  | .input input => .ok { m with channels := { m.channels with input } }
  | .output output => .ok { m with channels := { m.channels with output } }
  | .memorySize size =>
    if size ≤ 0 then .failed ⟨.memorySize size, []⟩
    else if mostCells < size.toNat then .crashed (utf8 "runtime error: makeslice: len out of range")
    else .ok { m with mem := Array.replicate size.toNat 0 }
  | .trace trace => .ok { m with trace := some trace }

/-- Makes settings in order up to the first that fails; those before it stay. -/
def setAll (m : Machine) : List Setting → Outcome Unit × Machine
  | [] => (.ok (), m)
  | setting :: rest =>
    match m.set setting with
    | .ok m => setAll m rest
    | .failed e => (.failed e, m)
    | .crashed text => (.crashed text, m)

def start (program : Program) : Machine :=
  { program, mem := Array.replicate defaultMemorySize 0 }

def programNote : Bytes := utf8 "invalid program"

/-- A machine for a program all of whose jumps lead into it. -/
def create (program : Option Program) (settings : List Setting) : Outcome Machine :=
  match program with
  | none => .failed ⟨.noProgram, []⟩
  | some program =>
    match program.fault? with
    | some fault => .failed ⟨.unresolved fault, [programNote]⟩
    | none =>
      match (start program).setAll settings with
      | (.ok (), m) => .ok m
      | (.failed e, _) => .failed e
      | (.crashed text, _) => .crashed text

def inBounds (m : Machine) : Bool := 0 ≤ m.ptr && m.ptr < m.mem.size

def current (m : Machine) : Cell := m.mem.getD m.ptr.toNat 0

def current? (m : Machine) : Option Cell := if m.inBounds then some m.current else none

/-- The cell `k` places behind the selected one; beyond the memory it is zero. -/
def operand (m : Machine) (k : Nat) : Cell := m.mem.getD (m.ptr.toNat + k) 0

def store (v : Cell) (m : Machine) : Machine :=
  { m with mem := m.mem.setIfInBounds m.ptr.toNat v }

@[simp] theorem size_store (v : Cell) (m : Machine) : (m.store v).mem.size = m.mem.size := by
  simp [store]

def advance (m : Machine) : Machine := { m with pc := m.pc + 1 }

def jump (label : Bytes) (m : Machine) : Machine := { m with pc := m.program.target label }

def instruction? (m : Machine) : Option Instruction :=
  if m.pc < 0 then none else m.program.code[m.pc.toNat]?

/-- The crash of the trace, if there is one, when the count stands at a number. -/
def traceCrash (m : Machine) (count : Nat) : Option Bytes :=
  m.trace.bind fun trace => trace.crash count

/-- The instruction that is to be executed, once the trace has been told of it. -/
def upcoming (m : Machine) : Except Error Instruction :=
  match m.instruction? with
  | none => .error ⟨.crash (indexCrash m.pc m.program.size), []⟩
  | some ins =>
    match m.traceCrash m.count with
    | some text => .error ⟨.crash text, []⟩
    | none => .ok ins

theorem upcoming_eq_ok_iff {m : Machine} {ins : Instruction} :
    m.upcoming = .ok ins ↔ m.instruction? = some ins ∧ m.traceCrash m.count = none := by
  unfold upcoming
  cases m.instruction? <;> cases m.traceCrash m.count <;> simp

def traceLine (m : Machine) (ins : Instruction) : Bytes :=
  Decimal.address m.pc.toNat ++ utf8 "\t" ++ Utf8.padRight 16 ins.text ++ utf8 "\tptr: " ++
    Decimal.ofInt m.ptr ++ utf8 "\tcell: " ++ Cell.text m.current

/-- Counts the instruction about to be executed and leaves a line in the trace. -/
def note (ins : Instruction) (m : Machine) : Machine :=
  match m.trace with
  | some trace =>
    if trace.detailed then
      { m with
        count := m.count + 1
        trace := some { trace with messages := trace.messages.push (m.traceLine ins) } }
    else { m with count := m.count + 1 }
  | none => { m with count := m.count + 1 }

end Machine

end Sardine
