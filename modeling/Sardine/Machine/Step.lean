import Sardine.Machine.Basic

/-! One step of a machine.
An instruction goes on, halts, fails or has to wait. When the program ends, for whatever reason,
the output is flushed and closed, and every later step only says that it has ended. -/
namespace Sardine.Machine

inductive Execution
  | next (m : Machine)
  | halt (m : Machine)
  | failed (e : Error) (m : Machine)
  | waiting (w : Wait) (m : Machine)

/-- What comes of a step: it returns, with or without an error, or waits for input, or does not
come back. -/
inductive Step
  | returned (error : Option Error) (m : Machine)
  | waiting (w : Wait) (m : Machine)
  | crashed (text : Bytes) (m : Machine)

/-- The machine without its channels, while an instruction is using them. -/
@[noinline] def detached (m : Machine) : Machine := { m with channels := {} }

def afterFetch (m : Machine) : Fetched × Channels → Execution
  | (.value v, channels) => .next (({ m with channels }.store v).advance)
  | (.failed e, channels) => .failed e { m with channels }
  | (.waiting w, channels) => .waiting w { m with channels }

def afterEmit (m : Machine) : Option Error × Channels → Execution
  | (none, channels) => .next { m with channels }.advance
  | (some e, channels) => .failed e { m with channels }

@[simp] theorem afterFetch_detached (m : Machine) (r : Fetched × Channels) :
    m.detached.afterFetch r = m.afterFetch r := by
  obtain ⟨fetched, channels⟩ := r
  cases fetched <;> rfl

@[simp] theorem afterEmit_detached (m : Machine) (r : Option Error × Channels) :
    m.detached.afterEmit r = m.afterEmit r := by
  obtain ⟨error, channels⟩ := r
  cases error <;> rfl

/-- The remainder that `DIV` stores: the remainder toward zero, moved up by the divisor and reduced
once more, all in wrapping arithmetic. -/
def remainder (a b : Cell) : Cell := (a % b + b) % b

/-- Executes an instruction, the pointer being in bounds. -/
def execute (ins : Instruction) (m : Machine) : Execution :=
  match ins.op with
  | .nop => .next m.advance
  | .getChar => m.detached.afterFetch (Channels.fetch .char m.channels)
  | .putChar => m.detached.afterEmit (Channels.emit [Cell.toByte m.current] m.channels)
  | .getNumber => m.detached.afterFetch (Channels.fetch (.number []) m.channels)
  | .putNumber => m.detached.afterEmit (Channels.emit (Cell.text m.current) m.channels)
  | .increment => .next (m.store (m.current + 1)).advance
  | .decrement => .next (m.store (m.current - 1)).advance
  | .zeroOut => .next (m.store 0).advance
  | .negate => .next (m.store (-m.current)).advance
  | .add => .next (m.store (m.operand 1 + m.operand 2)).advance
  | .subtract => .next (m.store (m.operand 1 - m.operand 2)).advance
  | .multiply => .next (m.store (m.operand 1 * m.operand 2)).advance
  | .divide =>
    if m.operand 2 = 0 then .failed ⟨.divisionByZero, []⟩ m
    else .next (m.store (remainder (m.operand 1) (m.operand 2))).advance
  | .setPointer => .next { m with ptr := ins.arg }.advance
  | .jumpIfPositive => .next (if 0 < m.current then m.jump ins.label else m.advance)
  | .jumpIfZero => .next (if m.current = 0 then m.jump ins.label else m.advance)
  | .exit => .halt m
  | .unassigned n h => .failed ⟨.invalidOpcode (.unassigned n h), []⟩ m

def perform (m : Machine) : Execution :=
  if m.inBounds then
    match m.upcoming with
    | .ok ins => execute ins (m.note ins)
    | .error e => .failed e m
  else .failed ⟨.outOfBounds m.ptr m.mem.size, []⟩ m

def atPc (m : Machine) (e : Error) : Error := e.wrap (utf8 "pc " ++ Decimal.ofInt m.pc)

/-- Ends the program. The error of the instruction comes before one of the output. -/
def finish (error : Option Error) (m : Machine) : Step :=
  match error, m.channels.shut with
  | _, (.crashed text, channels) => .crashed text { m with status := .ended, channels }
  | some e, (_, channels) => .returned (some (m.atPc e)) { m with status := .ended, channels }
  | none, (.ok (), channels) => .returned none { m with status := .ended, channels }
  | none, (.failed e, channels) => .returned (some e) { m with status := .ended, channels }

def isPastEnd (m : Machine) : Bool := m.program.size ≤ m.pc

def settle : Execution → Step
  | .next m => if m.isPastEnd then m.finish none else .returned none m
  | .halt m => m.finish none
  | .failed e m => m.finish (some e)
  | .waiting w m => .waiting w m

def step (m : Machine) : Step :=
  match m.status with
  | .ended => .returned (some ⟨.ended, []⟩) m
  | .running => if m.isPastEnd then m.finish none else settle m.perform

def resume (w : Wait) (m : Machine) : Step := settle (m.afterFetch (Channels.receive w m.channels))

end Sardine.Machine
