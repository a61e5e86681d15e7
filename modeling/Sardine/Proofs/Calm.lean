import Sardine.Machine.Channels

/-! Channels that never crash.
They stay so whatever is read from them and written to them, and all that goes wrong on them is
what their readers and devices report. -/
namespace Sardine

/-- An error that a device reports. -/
inductive DeviceError : Error → Prop
  | sink (text : Bytes) : DeviceError ⟨.sink text, []⟩

/-- An error of an instruction that exists, executed at a cell that exists. -/
inductive InstructionError : Error → Prop
  | divisionByZero : InstructionError ⟨.divisionByZero, []⟩
  | invalidNumber (token : Bytes) : InstructionError ⟨.invalidNumber token, []⟩
  | inputRead {stop : Stop} (h : stop ≠ .endOfData) :
      InstructionError (stop.toError.wrap Channels.inputNote)
  | outputFlush {e : Error} (h : DeviceError e) : InstructionError (e.wrap Channels.flushNote)
  | outputWrite {e : Error} (h : DeviceError e) : InstructionError (e.wrap Channels.writeNote)

def Outcome.Calm {α : Type} : Outcome α → Prop
  | ok _ => True
  | failed e => DeviceError e
  | crashed _ => False

def Written.Calm : Written → Prop
  | done _ => True
  | failed _ e => DeviceError e
  | crashed _ => False

def Script.Calm (script : Script) : Prop := ∀ text, Event.crash text ∉ script

namespace Script

theorem Calm.tail {event : Event} {rest : Script} (h : Calm (event :: rest)) : Calm rest :=
  fun text hmem => h text (List.mem_cons_of_mem _ hmem)

theorem Calm.data {bytes more : Bytes} {stop last : Option Stop} {rest : Script}
    (h : Calm (.data bytes stop :: rest)) : Calm (.data more last :: rest) := by
  intro text hmem
  exact h.tail text (by simpa using hmem)

theorem Calm.next {script : Script} (h : Calm script) :
    (∀ text, script.next.1 ≠ .crashed text) ∧ Calm script.next.2 := by
  fun_induction Script.next script with
  | case1 => exact ⟨by simp, h⟩
  | case2 text rest => exact absurd List.mem_cons_self (h text)
  | case3 rest ih => exact ih h.tail
  | case4 stop rest => exact ⟨by simp, h.tail⟩
  | case5 b bytes stop rest => exact ⟨by simp, h.data⟩

theorem Calm.read {script : Script} (h : Calm script) (n : Nat) :
    (∀ text, (script.read n).1 ≠ .crash text) ∧ Calm (script.read n).2 := by
  match script with
  | [] => exact ⟨by simp, h⟩
  | .crash text :: rest => exact absurd List.mem_cons_self (h text)
  | .data bytes stop :: rest =>
    simp only [Script.read]
    split
    · exact ⟨by simp, h.data⟩
    · exact ⟨by simp, h.tail⟩

theorem Calm.refill {script : Script} (h : Calm script) (room tries : Nat) :
    (∀ text, (script.refill room tries).1 ≠ .crash text) ∧ Calm (script.refill room tries).2 := by
  induction tries generalizing script with
  | zero => exact ⟨by simp [Script.refill], h⟩
  | succ tries ih =>
    have hread := h.read room
    unfold Script.refill
    split
    · rename_i rest heq
      rw [heq] at hread
      exact ih hread.2
    · exact hread

end Script

theorem BufferedReader.next_calm {r : BufferedReader} (h : r.source.Calm) :
    (∀ text, r.next.1 ≠ .crashed text) ∧ r.next.2.source.Calm := by
  have hrefill := h.refill capacity patience
  unfold BufferedReader.next
  split
  · exact ⟨by simp, h⟩
  · exact ⟨by simp, h⟩
  · split
    · rename_i text source heq
      rw [heq] at hrefill
      exact absurd rfl (hrefill.1 text)
    all_goals
      rename_i heq
      rw [heq] at hrefill
      exact ⟨by simp, hrefill.2⟩

/-- An input of which no reading crashes. -/
def Input.Calm : Input → Prop
  | direct source => source.Calm
  | buffered reader => reader.source.Calm
  | _ => True

theorem Input.Calm.next {input : Input} (h : input.Calm) :
    (∀ text, input.next.1 ≠ .crashed text) ∧ input.next.2.Calm := by
  cases input with
  | absent => exact ⟨by simp [Input.next], trivial⟩
  | bytes rest => cases rest <;> exact ⟨by simp [Input.next], trivial⟩
  | direct source => exact Script.Calm.next h
  | buffered reader => exact BufferedReader.next_calm h
  | queue q =>
    refine ⟨fun text => ?_, trivial⟩
    simp only [Input.next, Queue.next]
    split
    · simp
    · split <;> simp

def NeverCrashes (faults : Nat → Option Fault) (first : Nat) : Prop :=
  ∀ number, first ≤ number → ∀ text, faults number ≠ some (.crash text)

theorem NeverCrashes.succ {faults : Nat → Option Fault} {first : Nat}
    (h : NeverCrashes faults first) : NeverCrashes faults (first + 1) :=
  fun number hle => h number (Nat.le_of_succ_le hle)

/-- A device of which no further call crashes. -/
structure Device.Calm (device : Device) : Prop where
  writes : NeverCrashes device.faults.write device.writes
  flushes : NeverCrashes device.faults.flush device.flushes
  closes : NeverCrashes device.faults.close device.closes

theorem Device.calm_of_faults {device : Device} (h : device.faults = {}) : device.Calm := by
  constructor <;> exact fun _ _ _ => by simp [h]

namespace Device

section Calm

variable {device : Device} (h : device.Calm)
include h

theorem Calm.record (call : Call) : (device.record call).Calm := ⟨h.writes, h.flushes, h.closes⟩

theorem Calm.countWrite : device.countWrite.Calm := ⟨h.writes.succ, h.flushes, h.closes⟩

theorem Calm.countFlush : device.countFlush.Calm := ⟨h.writes, h.flushes.succ, h.closes⟩

theorem Calm.countClose : device.countClose.Calm := ⟨h.writes, h.flushes, h.closes.succ⟩

theorem Calm.write (bytes : Bytes) :
    (device.write bytes).1.Calm ∧ (device.write bytes).2.Calm := by
  unfold Device.write
  split
  · exact ⟨trivial, h.countWrite.record _⟩
  · exact ⟨DeviceError.sink _, h.countWrite.record _⟩
  · rename_i text hcrash
    exact absurd hcrash (h.writes _ (Nat.le_refl _) text)

theorem Calm.flush : device.flush.1.Calm ∧ device.flush.2.Calm := by
  unfold Device.flush
  split
  · exact ⟨trivial, h.countFlush.record _⟩
  · exact ⟨DeviceError.sink _, h.countFlush.record _⟩
  · rename_i text hcrash
    exact absurd hcrash (h.flushes _ (Nat.le_refl _) text)

theorem Calm.close : device.close.1.Calm ∧ device.close.2.Calm := by
  unfold Device.close
  split
  · exact ⟨trivial, h.countClose.record _⟩
  · exact ⟨DeviceError.sink _, h.countClose.record _⟩
  · rename_i text hcrash
    exact absurd hcrash (h.closes _ (Nat.le_refl _) text)

end Calm

end Device

/-- A buffer in front of such a device, that has kept no error but one of the device. -/
structure BufferedDevice.Calm (b : BufferedDevice) : Prop where
  device : b.device.Calm
  failure : ∀ e, b.failure = some e → DeviceError e

namespace BufferedDevice

theorem Calm.hold {b : BufferedDevice} (h : b.Calm) (bytes : Bytes) : (b.hold bytes).Calm :=
  ⟨h.device, h.failure⟩

theorem Calm.flush {b : BufferedDevice} (h : b.Calm) : b.flush.1.Calm ∧ b.flush.2.Calm := by
  have hwrite := h.device.write b.held.toList
  unfold BufferedDevice.flush
  split
  · rename_i e hfailure
    exact ⟨h.failure e hfailure, h⟩
  · split
    · exact ⟨trivial, h⟩
    · split
      all_goals
        rename_i heq
        rw [heq] at hwrite
      · exact ⟨trivial, hwrite.2, h.failure⟩
      · exact ⟨hwrite.1, hwrite.2, fun e he => Option.some.inj he ▸ hwrite.1⟩
      · exact hwrite.1.elim

theorem Calm.writeThrough {b : BufferedDevice} (h : b.Calm) (bytes : Bytes) :
    (b.writeThrough bytes).1.Calm ∧ (b.writeThrough bytes).2.Calm := by
  have hwrite := h.device.write bytes
  unfold BufferedDevice.writeThrough
  split
  all_goals
    rename_i heq
    rw [heq] at hwrite
  · exact ⟨trivial, hwrite.2, h.failure⟩
  · exact ⟨hwrite.1, hwrite.2, fun e he => Option.some.inj he ▸ hwrite.1⟩
  · exact hwrite.1.elim

theorem Calm.write {b : BufferedDevice} (h : b.Calm) (bytes : Bytes) :
    (b.write bytes).1.Calm ∧ (b.write bytes).2.Calm := by
  unfold BufferedDevice.write
  split
  · rename_i e hfailure
    exact ⟨h.failure e hfailure, h⟩
  · split
    · exact ⟨trivial, h.hold bytes⟩
    · split
      · exact h.writeThrough bytes
      · have hflush := (h.hold (bytes.take b.room)).flush
        split
        all_goals
          rename_i heq
          rw [heq] at hflush
        · exact hflush
        · exact hflush
        · split
          · exact ⟨trivial, hflush.2.hold _⟩
          · have hrest := hflush.2.writeThrough (bytes.drop b.room)
            split
            all_goals
              rename_i hthrough
              rw [hthrough] at hrest
              exact hrest

end BufferedDevice

/-- An output of which no call crashes. -/
def Output.Calm : Output → Prop
  | absent => True
  | direct device => device.Calm
  | buffered writer => writer.Calm

namespace Output

variable {output : Output} (h : output.Calm)
include h

theorem Calm.flush : output.flush.1.Calm ∧ output.flush.2.Calm := by
  cases output with
  | absent => exact ⟨trivial, trivial⟩
  | direct device =>
    simp only [Output.flush]
    split
    · exact Device.Calm.flush h
    · exact ⟨trivial, h⟩
  | buffered writer => exact BufferedDevice.Calm.flush h

theorem Calm.write (hthere : output.isAbsent = false) (bytes : Bytes) :
    (output.write bytes).1.Calm ∧ (output.write bytes).2.Calm := by
  cases output with
  | absent => simp [isAbsent] at hthere
  | direct device => exact Device.Calm.write h bytes
  | buffered writer => exact BufferedDevice.Calm.write h bytes

theorem Calm.close : output.close.1.Calm ∧ output.close.2.Calm := by
  cases output with
  | absent => exact ⟨trivial, trivial⟩
  | direct device =>
    simp only [Output.close]
    split
    · exact Device.Calm.close h
    · exact ⟨trivial, h⟩
  | buffered writer => exact ⟨trivial, h⟩

end Output

structure Channels.Calm (channels : Channels) : Prop where
  input : channels.input.Calm
  output : channels.output.Calm

def Fetched.Calm : Fetched → Prop
  | failed e => InstructionError e
  | _ => True

namespace Channels

theorem ofResult_calm (result : Wait.Result) : (ofResult result).Calm := by
  cases result with
  | error token => exact InstructionError.invalidNumber token
  | ok v => trivial

section Taking

variable {channels : Channels} (h : channels.Calm)
include h

theorem Calm.of_next {delivery : Delivery} {input : Input}
    (heq : channels.input.next = (delivery, input)) :
    (∀ text, delivery ≠ .crashed text) ∧ input.Calm := by
  have hnext := h.input.next
  rwa [heq] at hnext

theorem Calm.of_flush {result : Outcome Unit} {output : Output}
    (heq : channels.output.flush = (result, output)) : result.Calm ∧ output.Calm := by
  have hflush := h.output.flush
  rwa [heq] at hflush

end Taking

theorem Calm.receive {w : Wait} {channels : Channels} (h : channels.Calm) :
    (receive w channels).1.Calm ∧ (receive w channels).2.Calm := by
  fun_induction Channels.receive w channels with
  | case1 w channels input hnext => exact ⟨trivial, (h.of_next hnext).2, h.output⟩
  | case2 w channels text input hnext => exact absurd rfl ((h.of_next hnext).1 text)
  | case3 w channels input hnext => exact ⟨ofResult_calm _, (h.of_next hnext).2, h.output⟩
  | case4 w channels stop input hstop hnext =>
    exact ⟨InstructionError.inputRead hstop, (h.of_next hnext).2, h.output⟩
  | case5 w channels b input hnext result _ =>
    exact ⟨ofResult_calm _, (h.of_next hnext).2, h.output⟩
  | case6 w channels b input hnext more _ output hflush ih =>
    exact ih ⟨(h.of_next hnext).2, (h.of_flush hflush).2⟩
  | case7 w channels b input hnext more _ e output hflush =>
    obtain ⟨herror, houtput⟩ := h.of_flush hflush
    exact ⟨InstructionError.outputFlush herror, (h.of_next hnext).2, houtput⟩
  | case8 w channels b input _ more _ text output hflush => exact (h.of_flush hflush).1.elim

theorem Calm.fetch {channels : Channels} (h : channels.Calm) (w : Wait) :
    (fetch w channels).1.Calm ∧ (fetch w channels).2.Calm := by
  unfold Channels.fetch
  split
  · exact ⟨ofResult_calm _, h⟩
  · split
    · rename_i output hflush
      exact Calm.receive ⟨h.input, (h.of_flush hflush).2⟩
    · rename_i e output hflush
      obtain ⟨herror, houtput⟩ := h.of_flush hflush
      exact ⟨InstructionError.outputFlush herror, h.input, houtput⟩
    · rename_i text output hflush
      exact (h.of_flush hflush).1.elim

theorem Calm.emit {channels : Channels} (h : channels.Calm) (bytes : Bytes) :
    (∀ e, (emit bytes channels).1 = some e → InstructionError e) ∧
      (emit bytes channels).2.Calm := by
  unfold Channels.emit
  split
  · exact ⟨by simp, h⟩
  · rename_i hthere
    have hwrite := h.output.write (by simpa using hthere) bytes
    split
    all_goals
      rename_i heq
      rw [heq] at hwrite
    · exact ⟨by simp, h.input, hwrite.2⟩
    · refine ⟨fun e he => ?_, h.input, hwrite.2⟩
      rw [← Option.some.inj he]
      exact InstructionError.outputWrite hwrite.1
    · exact hwrite.1.elim

theorem Calm.shut {channels : Channels} (h : channels.Calm) :
    (∀ text, channels.shut.1 ≠ .crashed text) ∧
      (∀ e, channels.shut.1 = .failed e →
        ∃ cause, DeviceError cause ∧ (e = cause.wrap flushNote ∨ e = cause.wrap closeNote)) ∧
      channels.shut.2.Calm := by
  unfold Channels.shut
  split
  · rename_i text output hflush
    exact (h.of_flush hflush).1.elim
  · rename_i output hflush
    have hclose := (h.of_flush hflush).2.close
    split
    all_goals
      rename_i heq
      rw [heq] at hclose
    · exact ⟨by simp, by simp, h.input, hclose.2⟩
    · refine ⟨by simp, fun e he => ⟨_, hclose.1, Or.inr ?_⟩, h.input, hclose.2⟩
      exact (Outcome.failed.inj he).symm
    · exact hclose.1.elim
  · rename_i e output hflush
    obtain ⟨herror, houtput⟩ := h.of_flush hflush
    have hclose := houtput.close
    split
    · rename_i heq
      rw [heq] at hclose
      exact hclose.1.elim
    · rename_i result after _ heq
      rw [heq] at hclose
      refine ⟨by simp, fun e he => ⟨_, herror, Or.inl ?_⟩, h.input, hclose.2⟩
      exact (Outcome.failed.inj he).symm

end Channels

end Sardine
