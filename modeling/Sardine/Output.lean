import Sardine.Output.Buffered

/-! Where a program writes: nowhere, on a device, or on a device behind a buffer. -/
namespace Sardine

inductive Output
  | absent
  | direct (device : Device)
  | buffered (writer : BufferedDevice)

namespace Output

def absentCrash : Bytes := utf8 "runtime error: invalid memory address or nil pointer dereference"

def write : Output → Bytes → Written × Output
  | absent, _ => (.crashed absentCrash, absent)
  | direct device, bytes =>
    match device.write bytes with
    | (result, device) => (result, direct device)
  | buffered writer, bytes =>
    match writer.write bytes with
    | (result, writer) => (result, buffered writer)

def flush : Output → Outcome Unit × Output
  | absent => (.ok (), absent)
  | direct device =>
    if device.canFlush then
      match device.flush with
      | (result, device) => (result, direct device)
    else (.ok (), direct device)
  | buffered writer =>
    match writer.flush with
    | (result, writer) => (result, buffered writer)

def close : Output → Outcome Unit × Output
  | direct device =>
    if device.canClose then
      match device.close with
      | (result, device) => (result, direct device)
    else (.ok (), direct device)
  | other => (.ok (), other)

def isAbsent : Output → Bool
  | absent => true
  | _ => false

def calls : Output → Array Call
  | absent => #[]
  | direct device => device.calls
  | buffered writer => writer.device.calls

def unbuffered : Output → Output
  | buffered writer => direct writer.device
  | other => other

def forget : Output → Output
  | absent => absent
  | direct device => direct { device with calls := #[] }
  | buffered writer => buffered { writer with device := { writer.device with calls := #[] } }

end Output

end Sardine
