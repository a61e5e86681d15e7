import Sardine.Error

/-! An output device that records every call made on it. Any of its calls may fail, each in its own
way. -/
namespace Sardine

/-- A call on a device and whether it went well. -/
inductive Call
  | write (ok : Bool) (bytes : Bytes)
  | flush (ok : Bool)
  | close (ok : Bool)
  deriving DecidableEq, Repr

/-- How a write comes back: all taken, or an error after some bytes, or not at all. -/
inductive Written
  | done (count : Nat)
  | failed (count : Nat) (error : Error)
  | crashed (text : Bytes)
  deriving DecidableEq, Repr

/-- What goes wrong with a call: it comes back with an error, or not at all. -/
inductive Fault
  | error (text : Bytes)
  | crash (text : Bytes)
  deriving DecidableEq, Repr

/-- What goes wrong with each call. Writes, flushes and closes are counted from zero, apart. -/
structure Faults where
  write : Nat → Option Fault := fun _ => none
  /-- The most bytes that the write takes if it fails. -/
  short : Nat → Nat := fun _ => 0
  flush : Nat → Option Fault := fun _ => none
  close : Nat → Option Fault := fun _ => none

structure Device where
  canFlush : Bool := false
  canClose : Bool := false
  faults : Faults := {}
  writes : Nat := 0
  flushes : Nat := 0
  closes : Nat := 0
  calls : Array Call := #[]

namespace Device

def record (call : Call) (device : Device) : Device :=
  { device with calls := device.calls.push call }

def countWrite (device : Device) : Device := { device with writes := device.writes + 1 }

def countFlush (device : Device) : Device := { device with flushes := device.flushes + 1 }

def countClose (device : Device) : Device := { device with closes := device.closes + 1 }

def write (device : Device) (bytes : Bytes) : Written × Device :=
  match device.faults.write device.writes with
  | none => (.done bytes.length, device.countWrite.record (.write true bytes))
  | some (.error text) =>
    (.failed (min (device.faults.short device.writes) bytes.length) ⟨.sink text, []⟩,
      device.countWrite.record (.write false bytes))
  | some (.crash text) => (.crashed text, device.countWrite)

def flush (device : Device) : Outcome Unit × Device :=
  match device.faults.flush device.flushes with
  | none => (.ok (), device.countFlush.record (.flush true))
  | some (.error text) => (.failed ⟨.sink text, []⟩, device.countFlush.record (.flush false))
  | some (.crash text) => (.crashed text, device.countFlush)

def close (device : Device) : Outcome Unit × Device :=
  match device.faults.close device.closes with
  | none => (.ok (), device.countClose.record (.close true))
  | some (.error text) => (.failed ⟨.sink text, []⟩, device.countClose.record (.close false))
  | some (.crash text) => (.crashed text, device.countClose)

end Device

end Sardine
