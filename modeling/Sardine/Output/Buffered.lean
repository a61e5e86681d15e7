import Sardine.Output.Device

/-! A buffer of bytes in front of a device.
Bytes are held back until the buffer is full or flushed. The first error is kept and comes back
from every later call. -/
namespace Sardine

structure BufferedDevice where
  device : Device
  held : Array UInt8 := #[]
  failure : Option Error := none

namespace BufferedDevice

def capacity : Nat := 4096

def room (b : BufferedDevice) : Nat := capacity - b.held.size

/-- Hands the held bytes to the device. What a failing device has not taken stays held. -/
def flush (b : BufferedDevice) : Outcome Unit × BufferedDevice :=
  match b.failure with
  | some e => (.failed e, b)
  | none =>
    if b.held.isEmpty then (.ok (), b)
    else match b.device.write b.held.toList with
      | (.done _, device) => (.ok (), { b with device, held := #[] })
      | (.failed n e, device) =>
        (.failed e, { device, held := (b.held.toList.drop n).toArray, failure := some e })
      | (.crashed text, device) => (.crashed text, { b with device })

def hold (bytes : Bytes) (b : BufferedDevice) : BufferedDevice :=
  { b with held := b.held ++ bytes }

/-- Writes past the buffer, which is empty. -/
def writeThrough (b : BufferedDevice) (bytes : Bytes) : Written × BufferedDevice :=
  match b.device.write bytes with
  | (.done n, device) => (.done n, { b with device })
  | (.failed n e, device) => (.failed n e, { b with device, failure := some e })
  | (.crashed text, device) => (.crashed text, { b with device })

/-- Bytes that fit are held. Otherwise they go straight to the device if nothing is held; and if
something is, the buffer is filled up and flushed first. -/
def write (b : BufferedDevice) (bytes : Bytes) : Written × BufferedDevice :=
  match b.failure with
  | some e => (.failed 0 e, b)
  | none =>
    if bytes.length ≤ b.room then (.done bytes.length, b.hold bytes)
    else if b.held.isEmpty then b.writeThrough bytes
    else
      match (b.hold (bytes.take b.room)).flush with
      | (.failed e, after) => (.failed b.room e, after)
      | (.crashed text, after) => (.crashed text, after)
      | (.ok (), after) =>
        if (bytes.drop b.room).length ≤ capacity then
          (.done bytes.length, after.hold (bytes.drop b.room))
        else match after.writeThrough (bytes.drop b.room) with
          | (.done n, after) => (.done (b.room + n), after)
          | (.failed n e, after) => (.failed (b.room + n) e, after)
          | (.crashed text, after) => (.crashed text, after)

end BufferedDevice

end Sardine
