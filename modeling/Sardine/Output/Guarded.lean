import Sardine.Output

/-! A guard on an output: after the first write that fails, nothing more is written, and every
later write brings the same error back. -/
namespace Sardine

structure Guarded where
  target : Output
  failure : Option Error := none

inductive Writer
  | bare (target : Output)
  | guarded (guard : Guarded)

/-- A guard is put on an output once only. -/
def Writer.guard : Writer → Guarded
  | bare target => { target }
  | guarded guard => guard

@[simp] theorem Writer.guard_guarded (g : Guarded) : (Writer.guarded g).guard = g := rfl

namespace Guarded

def note : Bytes := utf8 "write failed"

def write (g : Guarded) (bytes : Bytes) : Written × Guarded :=
  match g.failure with
  | some e => (.failed 0 e, g)
  | none =>
    match g.target.write bytes with
    | (.done n, target) => (.done n, { target })
    | (.failed n e, target) => (.failed n (e.wrap note), { target, failure := some (e.wrap note) })
    | (.crashed text, target) => (.crashed text, { target })

def writeAll : List Bytes → Guarded → Outcome Unit × Guarded
  | [], g =>
    match g.failure with
    | some e => (.failed e, g)
    | none => (.ok (), g)
  | piece :: pieces, g =>
    match g.write piece with
    | (.crashed text, g) => (.crashed text, g)
    | (_, g) => writeAll pieces g

/-- Goes on after a call unless it has crashed; an error is left to the guard. -/
def andThen (call : Outcome Unit × Guarded) (next : Guarded → Outcome Unit × Guarded) :
    Outcome Unit × Guarded :=
  match call with
  | (.crashed text, g) => (.crashed text, g)
  | (_, g) => next g

theorem write_of_failure {g : Guarded} {e : Error} (h : g.failure = some e) (bytes : Bytes) :
    g.write bytes = (.failed 0 e, g) := by
  simp [write, h]

theorem writeAll_of_failure {g : Guarded} {e : Error} (h : g.failure = some e)
    (pieces : List Bytes) : writeAll pieces g = (.failed e, g) := by
  induction pieces with
  | nil => simp [writeAll, h]
  | cons piece pieces ih => simp [writeAll, write_of_failure h, ih]

end Guarded

end Sardine
