import Sardine.Files
import Sardine.Source.Diagnostic

/-! Errors: a cause, and what was being done when it arose. -/
namespace Sardine

inductive Cause
  | invalidNumber (token : Bytes)
  | outOfBounds (pointer : Int) (size : Nat)
  | divisionByZero
  | invalidOpcode (op : Opcode)
  | ended
  | inputClosed
  | endOfInput
  | noProgress
  | reader (text : Bytes)
  | sink (text : Bytes)
  | crash (text : Bytes)
  | noProgram
  | unresolved (fault : Program.Fault)
  | memorySize (size : Int)
  | rejected (diagnostics : List Diagnostic)
  | file (fault : FileFault)
  | settingsFile (text : Bytes)
  | oneSourceExpected
  deriving DecidableEq, Repr

def Cause.message : Cause → Bytes
  | invalidNumber token => utf8 "invalid number " ++ Quoted.quote token
  | outOfBounds pointer size =>
    utf8 "pointer " ++ Decimal.ofInt pointer ++ utf8 " out of bounds [0, " ++
      Decimal.digits size ++ utf8 ")"
  | divisionByZero => utf8 "division by zero"
  | invalidOpcode op => utf8 "invalid opcode " ++ op.text
  | ended => utf8 "vm: execution ended"
  | inputClosed => utf8 "vm: input closed"
  | endOfInput => utf8 "EOF"
  | noProgress => utf8 "multiple Read calls return no data or error"
  | reader text => text
  | sink text => text
  | crash text => text
  | noProgram => utf8 "nil program"
  | unresolved fault => fault.message
  | memorySize size => utf8 "invalid memory size " ++ Decimal.ofInt size
  | rejected diagnostics => Bytes.join [Bytes.newline] (diagnostics.map Diagnostic.message)
  | file fault => fault.message
  | settingsFile text => text
  | oneSourceExpected => utf8 "expected exactly one source file"

/-- A cause with notes on what was being done, the outermost first. -/
structure Error where
  cause : Cause
  notes : List Bytes := []
  deriving DecidableEq, Repr

namespace Error

def wrap (note : Bytes) (e : Error) : Error := { e with notes := note :: e.notes }

@[simp] theorem cause_wrap (note : Bytes) (e : Error) : (e.wrap note).cause = e.cause := rfl

@[simp] theorem notes_wrap (note : Bytes) (e : Error) : (e.wrap note).notes = note :: e.notes := rfl

def message (e : Error) : Bytes :=
  e.notes.foldr (fun note rest => note ++ utf8 ": " ++ rest) e.cause.message

@[simp] theorem message_wrap (note : Bytes) (e : Error) :
    (e.wrap note).message = note ++ utf8 ": " ++ e.message := rfl

/-- The cause and then the notes, from the innermost to the outermost, each on a line of its own. -/
def report (e : Error) : Bytes :=
  Bytes.join [Bytes.newline] (e.cause.message :: e.notes.reverse)

end Error

/-- How a call on the outside world comes back: with a value, with an error, or not at all. -/
inductive Outcome (α : Type)
  | ok (value : α)
  | failed (error : Error)
  | crashed (text : Bytes)
  deriving DecidableEq, Repr

def indexCrash (index : Int) (size : Nat) : Bytes :=
  utf8 "runtime error: index out of range [" ++ Decimal.ofInt index ++
    (if index < 0 then utf8 "]" else utf8 "] with length " ++ Decimal.digits size)

end Sardine
