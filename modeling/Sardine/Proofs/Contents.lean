import Sardine.Machine.Channels

/-! What has been written to an output, and how much of it has reached the device.
On a device of which no call fails, nothing is lost, repeated or reordered by a buffer: what has
reached the device, followed by what is held back, is what has been written. -/
namespace Sardine

def Call.bytes : Call → Bytes
  | write true bytes => bytes
  | _ => []

namespace Device

def received (device : Device) : Bytes := device.calls.toList.flatMap Call.bytes

/-- A device of which no call fails. -/
structure Reliable (device : Device) : Prop where
  writes : ∀ number, device.faults.write number = none
  flushes : ∀ number, device.faults.flush number = none
  closes : ∀ number, device.faults.close number = none

theorem reliable_of_faults {device : Device} (h : device.faults = {}) : device.Reliable := by
  constructor <;> exact fun _ => by rw [h]

section Reliable

variable {device : Device} (h : device.Reliable)
include h

theorem Reliable.of_faults {after : Device} (hsame : after.faults = device.faults) :
    after.Reliable := by
  constructor
  · rw [hsame]
    exact h.writes
  · rw [hsame]
    exact h.flushes
  · rw [hsame]
    exact h.closes

theorem Reliable.write_eq (bytes : Bytes) :
    device.write bytes = (.done bytes.length, device.countWrite.record (.write true bytes)) := by
  rw [Device.write, h.writes]

theorem Reliable.flush_eq :
    device.flush = (.ok (), device.countFlush.record (.flush true)) := by
  rw [Device.flush, h.flushes]

theorem Reliable.close_eq :
    device.close = (.ok (), device.countClose.record (.close true)) := by
  rw [Device.close, h.closes]

theorem Reliable.write (bytes : Bytes) :
    ∃ after, device.write bytes = (.done bytes.length, after) ∧ after.Reliable ∧
      after.received = device.received ++ bytes := by
  refine ⟨_, h.write_eq bytes, h.of_faults rfl, ?_⟩
  simp [received, record, countWrite, Call.bytes]

theorem Reliable.flush :
    ∃ after, device.flush = (.ok (), after) ∧ after.Reliable ∧
      after.received = device.received := by
  refine ⟨_, h.flush_eq, h.of_faults rfl, ?_⟩
  simp [received, record, countFlush, Call.bytes]

theorem Reliable.close :
    ∃ after, device.close = (.ok (), after) ∧ after.Reliable ∧
      after.received = device.received := by
  refine ⟨_, h.close_eq, h.of_faults rfl, ?_⟩
  simp [received, record, countClose, Call.bytes]

end Reliable

end Device

namespace BufferedDevice

structure Reliable (b : BufferedDevice) : Prop where
  device : b.device.Reliable
  failure : b.failure = none

/-- What has been written, whether it has reached the device or is held back. -/
def content (b : BufferedDevice) : Bytes := b.device.received ++ b.held.toList

theorem content_hold (bytes : Bytes) (b : BufferedDevice) :
    (b.hold bytes).content = b.content ++ bytes := by
  simp [content, hold]

theorem content_of_empty {b : BufferedDevice} (h : b.held = #[]) :
    b.content = b.device.received := by
  simp [content, h]

section Reliable

variable {b : BufferedDevice} (h : b.Reliable)
include h

theorem Reliable.hold (bytes : Bytes) : (b.hold bytes).Reliable := ⟨h.device, h.failure⟩

theorem Reliable.flush : ∃ after, b.flush = (.ok (), after) ∧ after.Reliable ∧
    after.device.received = b.content ∧ after.held = #[] := by
  unfold BufferedDevice.flush
  rw [h.failure]
  by_cases hempty : b.held.isEmpty = true
  · have hheld : b.held = #[] := Array.isEmpty_iff.mp hempty
    rw [if_pos hempty]
    exact ⟨b, rfl, h, (content_of_empty hheld).symm, hheld⟩
  · obtain ⟨device, hwrite, hdevice, hreceived⟩ := h.device.write b.held.toList
    rw [if_neg hempty, hwrite]
    exact ⟨_, rfl, ⟨hdevice, rfl⟩, hreceived, rfl⟩

theorem Reliable.writeThrough (hheld : b.held = #[]) (bytes : Bytes) :
    ∃ n after, b.writeThrough bytes = (.done n, after) ∧ after.Reliable ∧
      after.content = b.content ++ bytes := by
  obtain ⟨device, hwrite, hdevice, hreceived⟩ := h.device.write bytes
  have hcontent : ({ b with device } : BufferedDevice).content = b.content ++ bytes := by
    have hafter : ({ b with device } : BufferedDevice).content = device.received :=
      content_of_empty hheld
    rw [hafter, hreceived, content_of_empty hheld]
  rw [BufferedDevice.writeThrough, hwrite]
  exact ⟨_, _, rfl, ⟨hdevice, h.failure⟩, hcontent⟩

/-- Nothing that is written is lost, wherever it goes. -/
theorem Reliable.write (bytes : Bytes) :
    ∃ n after, b.write bytes = (.done n, after) ∧ after.Reliable ∧
      after.content = b.content ++ bytes := by
  unfold BufferedDevice.write
  rw [h.failure]
  by_cases hfits : bytes.length ≤ b.room
  · simp only [if_pos hfits]
    exact ⟨_, _, rfl, h.hold bytes, content_hold bytes b⟩
  · simp only [if_neg hfits]
    by_cases hempty : b.held.isEmpty = true
    · rw [if_pos hempty]
      exact h.writeThrough (Array.isEmpty_iff.mp hempty) bytes
    · rw [if_neg hempty]
      -- The buffer is filled up and flushed, and the rest comes to an empty buffer.
      obtain ⟨after, hflush, hreliable, hreceived, hheld⟩ := (h.hold (bytes.take b.room)).flush
      have hcontent : after.content ++ bytes.drop b.room = b.content ++ bytes := by
        rw [content_of_empty hheld, hreceived, content_hold, List.append_assoc,
          List.take_append_drop]
      rw [hflush]
      by_cases hrest : (bytes.drop b.room).length ≤ capacity
      · simp only [if_pos hrest]
        exact ⟨_, _, rfl, hreliable.hold _, (content_hold _ _).trans hcontent⟩
      · obtain ⟨n, last, hwrite, hlast, hall⟩ := hreliable.writeThrough hheld (bytes.drop b.room)
        simp only [if_neg hrest, hwrite]
        exact ⟨_, _, rfl, hlast, hall.trans hcontent⟩

end Reliable

end BufferedDevice

namespace Output

def received : Output → Bytes
  | absent => []
  | direct device => device.received
  | buffered writer => writer.device.received

def content : Output → Bytes
  | absent => []
  | direct device => device.received
  | buffered writer => writer.content

/-- An output on a device of which no call fails, with or without a buffer. -/
inductive Reliable : Bool → Output → Prop
  | direct {device : Device} (h : device.Reliable) : Reliable false (direct device)
  | buffered {writer : BufferedDevice} (h : writer.Reliable) : Reliable true (buffered writer)

section Reliable

variable {buffer : Bool} {output : Output} (h : output.Reliable buffer)
include h

theorem Reliable.isAbsent : output.isAbsent = false := by
  cases h <;> rfl

/-- After a flush everything that has been written has reached the device. -/
theorem Reliable.flush : ∃ after, output.flush = (.ok (), after) ∧ after.Reliable buffer ∧
    after.received = output.content ∧ after.content = output.content := by
  cases h with
  | @direct device h =>
    unfold Output.flush
    by_cases hcan : device.canFlush = true
    · obtain ⟨after, hflush, hafter, hreceived⟩ := h.flush
      simp only [if_pos hcan, hflush]
      exact ⟨_, rfl, Reliable.direct hafter, hreceived, hreceived⟩
    · simp only [if_neg hcan]
      exact ⟨_, rfl, Reliable.direct h, rfl, rfl⟩
  | @buffered writer h =>
    obtain ⟨after, hflush, hafter, hreceived, hheld⟩ := h.flush
    unfold Output.flush
    simp only [hflush]
    exact ⟨_, rfl, Reliable.buffered hafter, hreceived,
      (BufferedDevice.content_of_empty hheld).trans hreceived⟩

theorem Reliable.write (bytes : Bytes) : ∃ n after, output.write bytes = (.done n, after) ∧
    after.Reliable buffer ∧ after.content = output.content ++ bytes := by
  cases h with
  | direct h =>
    obtain ⟨after, hwrite, hafter, hcontent⟩ := h.write bytes
    unfold Output.write
    simp only [hwrite]
    exact ⟨_, _, rfl, Reliable.direct hafter, hcontent⟩
  | buffered h =>
    obtain ⟨n, after, hwrite, hafter, hcontent⟩ := h.write bytes
    unfold Output.write
    simp only [hwrite]
    exact ⟨_, _, rfl, Reliable.buffered hafter, hcontent⟩

theorem Reliable.close : ∃ after, output.close = (.ok (), after) ∧ after.Reliable buffer ∧
    after.received = output.received ∧ after.content = output.content := by
  cases h with
  | @direct device h =>
    unfold Output.close
    by_cases hcan : device.canClose = true
    · obtain ⟨after, hclose, hafter, hreceived⟩ := h.close
      simp only [if_pos hcan, hclose]
      exact ⟨_, rfl, Reliable.direct hafter, hreceived, hreceived⟩
    · simp only [if_neg hcan]
      exact ⟨_, rfl, Reliable.direct h, rfl, rfl⟩
  | buffered h => exact ⟨_, rfl, Reliable.buffered h, rfl, rfl⟩

end Reliable

theorem Reliable.received_eq {output : Output} (h : output.Reliable false) :
    output.received = output.content := by
  cases h
  rfl

end Output

end Sardine
