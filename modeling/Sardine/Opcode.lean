import Sardine.Text.Decimal

/-! The operations of the machine.
Seventeen numbers name an operation; every other number is kept as it is, so that opcodes and
integers correspond one to one. -/
namespace Sardine

inductive Opcode
  | nop | getChar | putChar | getNumber | putNumber | increment | decrement
  | jumpIfPositive | jumpIfZero | zeroOut | negate | add | subtract | multiply | divide
  | setPointer | exit
  | unassigned (number : Int) (free : number < 0 ∨ 16 < number)
  deriving DecidableEq, Repr

namespace Opcode

/-- The assigned operations, each at the place of its number. -/
def assigned : List Opcode :=
  [nop, getChar, putChar, getNumber, putNumber, increment, decrement, jumpIfPositive, jumpIfZero,
    zeroOut, negate, add, subtract, multiply, divide, setPointer, exit]

def number : Opcode → Int
  | nop => 0
  | getChar => 1
  | putChar => 2
  | getNumber => 3
  | putNumber => 4
  | increment => 5
  | decrement => 6
  | jumpIfPositive => 7
  | jumpIfZero => 8
  | zeroOut => 9
  | negate => 10
  | add => 11
  | subtract => 12
  | multiply => 13
  | divide => 14
  | setPointer => 15
  | exit => 16
  | unassigned n _ => n

def ofNumber (n : Int) : Opcode :=
  if h : n < 0 ∨ 16 < n then unassigned n h else assigned.getD n.toNat nop

theorem number_ofNumber (n : Int) : (ofNumber n).number = n := by
  unfold ofNumber
  split
  · rfl
  · rename_i h
    obtain ⟨k, rfl⟩ : ∃ k : Nat, n = k := ⟨n.toNat, by omega⟩
    have hk : k < 17 := by omega
    have all : ∀ j : Fin 17, (assigned.getD j.val nop).number = (j.val : Int) := by decide
    exact all ⟨k, hk⟩

theorem ofNumber_number (op : Opcode) : ofNumber op.number = op := by
  cases op with
  | unassigned n h => simp [ofNumber, number, h]
  | _ => rfl

def mnemonic? : Opcode → Option String
  | nop => some "NOP"
  | getChar => some "GETC"
  | putChar => some "PUTC"
  | getNumber => some "GETN"
  | putNumber => some "PUTN"
  | increment => some "INC"
  | decrement => some "DEC"
  | jumpIfPositive => some "JGZ"
  | jumpIfZero => some "JZ"
  | zeroOut => some "ZERO"
  | negate => some "NEG"
  | add => some "ADD"
  | subtract => some "SUB"
  | multiply => some "MUL"
  | divide => some "DIV"
  | setPointer => some "PTR"
  | exit => some "EXIT"
  | unassigned _ _ => none

/-- The mnemonic, or the bare number of an operation that has none. -/
def text (op : Opcode) : Bytes :=
  match op.mnemonic? with
  | some word => utf8 word
  | none => utf8 "Opcode(" ++ Decimal.ofInt op.number ++ utf8 ")"

def ofMnemonic? (word : Bytes) : Option Opcode :=
  assigned.find? fun op => op.text = word

def isJump : Opcode → Bool
  | jumpIfPositive => true
  | jumpIfZero => true
  | _ => false

end Opcode

end Sardine
