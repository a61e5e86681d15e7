import Sardine.Machine.Step

/-! What an instruction can do to a machine, told once for all opcodes. -/
namespace Sardine.Machine

section Note

variable (ins : Instruction) (m : Machine)

theorem note_eq : m.note ins = { m with count := m.count + 1, trace := (m.note ins).trace } := by
  unfold note
  split
  · split <;> rfl
  · rename_i htrace
    simp [htrace]

@[simp] theorem channels_note : (m.note ins).channels = m.channels := by rw [note_eq]

@[simp] theorem traceCrash_note : (m.note ins).traceCrash = m.traceCrash := by
  unfold note traceCrash
  split
  · rename_i trace htrace
    split <;> simp [htrace]
  · rfl

end Note

def waitOf? : Opcode → Option Wait
  | .getChar => some .char
  | .getNumber => some (.number [])
  | _ => none

inductive Executes (ins : Instruction) (m : Machine) : Execution → Prop
  | pass : Executes ins m (.next m.advance)
  | store (v : Cell) : Executes ins m (.next (m.store v).advance)
  | point (h : ins.op = .setPointer) : Executes ins m (.next { m with ptr := ins.arg }.advance)
  | jump (h : ins.op.isJump = true) : Executes ins m (.next (m.jump ins.label))
  | fetch (w : Wait) (h : waitOf? ins.op = some w) :
      Executes ins m (m.afterFetch (Channels.fetch w m.channels))
  | emit (bytes : Bytes) : Executes ins m (m.afterEmit (Channels.emit bytes m.channels))
  | exit : Executes ins m (.halt m)
  | divisionByZero : Executes ins m (.failed ⟨.divisionByZero, []⟩ m)
  | unassigned (n : Int) (free : n < 0 ∨ 16 < n) (h : ins.op = .unassigned n free) :
      Executes ins m (.failed ⟨.invalidOpcode ins.op, []⟩ m)

theorem executes (ins : Instruction) (m : Machine) : Executes ins m (execute ins m) := by
  cases hop : ins.op with
  | nop =>
    simp only [execute, hop]
    exact Executes.pass
  | getChar | getNumber =>
    simp only [execute, hop, afterFetch_detached]
    exact Executes.fetch _ (by rw [hop]; rfl)
  | putChar | putNumber =>
    simp only [execute, hop, afterEmit_detached]
    exact Executes.emit _
  | divide =>
    simp only [execute, hop]
    split
    · exact Executes.divisionByZero
    · exact Executes.store _
  | setPointer =>
    simp only [execute, hop]
    exact Executes.point hop
  | jumpIfPositive | jumpIfZero =>
    simp only [execute, hop]
    split
    · exact Executes.jump (by rw [hop]; rfl)
    · exact Executes.pass
  | exit =>
    simp only [execute, hop]
    exact Executes.exit
  | unassigned n free =>
    have h := Executes.unassigned (m := m) n free hop
    simpa only [execute, hop] using h
  | _ =>
    simp only [execute, hop]
    exact Executes.store _

end Sardine.Machine
