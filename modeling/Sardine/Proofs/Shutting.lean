import Sardine.Proofs.Calm
import Mathlib.Logic.Relation

/-! What is done on an output.
As long as a program runs, bytes are written and the output is flushed. When the program ends, the
output is shut: it is flushed once more and then closed, even if the flush fails. -/
namespace Sardine

def Outcome.error? {α : Type} : Outcome α → Option Error
  | failed e => some e
  | _ => none

/-- Calls have been added, and none of them is a close. -/
def Unclosed (calls after : Array Call) : Prop :=
  ∃ more : List Call, after.toList = calls.toList ++ more ∧ ∀ ok, Call.close ok ∉ more

namespace Unclosed

theorem refl (calls : Array Call) : Unclosed calls calls := ⟨[], by simp, by simp⟩

theorem push {calls : Array Call} {call : Call} (h : ∀ ok, call ≠ .close ok) :
    Unclosed calls (calls.push call) :=
  ⟨[call], by simp, fun ok hmem => h ok (List.mem_singleton.mp hmem).symm⟩

theorem trans {calls middle after : Array Call} (h : Unclosed calls middle)
    (hafter : Unclosed middle after) : Unclosed calls after := by
  obtain ⟨more, hmore, hnot⟩ := h
  obtain ⟨last, hlast, hnot'⟩ := hafter
  refine ⟨more ++ last, by rw [hlast, hmore, List.append_assoc], fun ok hmem => ?_⟩
  rcases List.mem_append.mp hmem with hmem | hmem
  · exact hnot ok hmem
  · exact hnot' ok hmem

end Unclosed

namespace Device

variable (device : Device)

theorem unclosed_write (bytes : Bytes) :
    Unclosed device.calls (device.write bytes).2.calls := by
  unfold write
  split
  · exact Unclosed.push (by simp)
  · exact Unclosed.push (by simp)
  · exact Unclosed.refl _

theorem unclosed_flush : Unclosed device.calls device.flush.2.calls := by
  unfold flush
  split
  · exact Unclosed.push (by simp)
  · exact Unclosed.push (by simp)
  · exact Unclosed.refl _

theorem canClose_flush : device.flush.2.canClose = device.canClose := by
  unfold flush
  split <;> rfl

variable {device}

theorem calls_flush (h : ∀ text, device.flush.1 ≠ .crashed text) :
    device.flush.2.calls.toList =
      device.calls.toList ++ [.flush device.flush.1.error?.isNone] := by
  unfold flush at h ⊢
  split at h
  · simp [record, countFlush, Outcome.error?]
  · simp [record, countFlush, Outcome.error?]
  · exact absurd rfl (h _)

theorem calls_close (h : ∀ text, device.close.1 ≠ .crashed text) :
    device.close.2.calls.toList =
      device.calls.toList ++ [.close device.close.1.error?.isNone] := by
  unfold close at h ⊢
  split at h
  · simp [record, countClose, Outcome.error?]
  · simp [record, countClose, Outcome.error?]
  · exact absurd rfl (h _)

end Device

namespace BufferedDevice

variable (b : BufferedDevice)

theorem unclosed_flush : Unclosed b.device.calls b.flush.2.device.calls := by
  have hwrite := b.device.unclosed_write b.held.toList
  unfold BufferedDevice.flush
  split
  · exact Unclosed.refl _
  · split
    · exact Unclosed.refl _
    · split
      all_goals
        rename_i heq
        rw [heq] at hwrite
        exact hwrite

theorem unclosed_writeThrough (bytes : Bytes) :
    Unclosed b.device.calls (b.writeThrough bytes).2.device.calls := by
  have hwrite := b.device.unclosed_write bytes
  unfold BufferedDevice.writeThrough
  split
  all_goals
    rename_i heq
    rw [heq] at hwrite
    exact hwrite

theorem unclosed_write (bytes : Bytes) :
    Unclosed b.device.calls (b.write bytes).2.device.calls := by
  unfold BufferedDevice.write
  split
  · exact Unclosed.refl _
  · split
    · exact Unclosed.refl _
    · split
      · exact b.unclosed_writeThrough bytes
      · have hflush := (b.hold (bytes.take b.room)).unclosed_flush
        split
        all_goals
          rename_i heq
          rw [heq] at hflush
        · exact hflush
        · exact hflush
        · split
          · exact hflush
          · rename_i after _
            have hrest := after.unclosed_writeThrough (bytes.drop b.room)
            split
            all_goals
              rename_i hthrough
              rw [hthrough] at hrest
              exact hflush.trans hrest

end BufferedDevice

namespace Output

def Works (output after : Output) : Prop :=
  (∃ bytes, (output.write bytes).2 = after) ∨ output.flush.2 = after

def Worked : Output → Output → Prop := Relation.ReflTransGen Works

theorem Worked.refl (output : Output) : Worked output output := Relation.ReflTransGen.refl

theorem worked_write (output : Output) (bytes : Bytes) : Worked output (output.write bytes).2 :=
  Relation.ReflTransGen.single (Or.inl ⟨bytes, rfl⟩)

theorem worked_flush (output : Output) : Worked output output.flush.2 :=
  Relation.ReflTransGen.single (Or.inr rfl)

theorem Worked.trans {output middle after : Output} (h : Worked output middle)
    (hafter : Worked middle after) : Worked output after :=
  Relation.ReflTransGen.trans h hafter

theorem Works.unclosed {output after : Output} (h : Works output after) :
    Unclosed output.calls after.calls := by
  cases output with
  | absent =>
    rcases h with ⟨bytes, rfl⟩ | rfl
    · exact Unclosed.refl _
    · exact Unclosed.refl _
  | direct device =>
    rcases h with ⟨bytes, rfl⟩ | rfl
    · exact device.unclosed_write bytes
    · by_cases hcan : device.canFlush
      · simpa [flush, hcan, calls] using device.unclosed_flush
      · simpa [flush, hcan] using Unclosed.refl _
  | buffered writer =>
    rcases h with ⟨bytes, rfl⟩ | rfl
    · exact writer.unclosed_write bytes
    · exact writer.unclosed_flush

theorem Worked.unclosed {output after : Output} (h : Worked output after) :
    Unclosed output.calls after.calls := by
  induction h with
  | refl => exact Unclosed.refl _
  | tail _ hstep ih => exact ih.trans (Works.unclosed hstep)

/-- Neither the last flush nor the close crashes. -/
structure Shuts (output : Output) : Prop where
  flush : ∀ text, output.flush.1 ≠ .crashed text
  close : ∀ text, output.flush.2.close.1 ≠ .crashed text

/-- The output can be shut however it has been written to and flushed. -/
def AlwaysShuts (output : Output) : Prop := ∀ after, output.Worked after → after.Shuts

theorem Calm.shuts {output : Output} (h : output.Calm) : output.Shuts := by
  have hnot : ∀ {result : Outcome Unit}, result.Calm → ∀ text, result ≠ .crashed text := by
    rintro result hcalm text rfl
    exact hcalm
  exact ⟨hnot h.flush.1, hnot h.flush.2.close.1⟩

theorem Calm.works {output after : Output} (h : output.Calm) (hworks : Works output after) :
    after.Calm := by
  rcases hworks with ⟨bytes, rfl⟩ | rfl
  · cases habsent : output.isAbsent with
    | false => exact (h.write habsent bytes).2
    | true =>
      cases output with
      | absent => trivial
      | _ => simp [isAbsent] at habsent
  · exact h.flush.2

/-- An output of which no call crashes can always be shut. -/
theorem Calm.alwaysShuts {output : Output} (h : output.Calm) : output.AlwaysShuts := by
  intro after hworked
  have hcalm : after.Calm := by
    induction hworked with
    | refl => exact h
    | tail _ hworks ih => exact ih.works hworks
  exact hcalm.shuts

def shut (output : Output) : Output := output.flush.2.close.2

/-- The error of the last flush or, if there is none, that of the close. -/
def shutError? (output : Output) : Option Error :=
  (output.flush.1.error?.map (Error.wrap Channels.flushNote)).or
    (output.flush.2.close.1.error?.map (Error.wrap Channels.closeNote))

theorem flush_direct (device : Device) : (direct device).flush =
    if device.canFlush then (device.flush.1, direct device.flush.2)
    else (.ok (), direct device) := rfl

theorem close_direct (device : Device) : (direct device).close =
    if device.canClose then (device.close.1, direct device.close.2)
    else (.ok (), direct device) := rfl

theorem calls_close_direct {device : Device} (h : ∀ text, (direct device).close.1 ≠ .crashed text) :
    (direct device).close.2.calls.toList = device.calls.toList ++
      if device.canClose then [.close (direct device).close.1.error?.isNone] else [] := by
  rw [close_direct] at h ⊢
  by_cases hcan : device.canClose
  · simp only [hcan, if_true] at h ⊢
    exact Device.calls_close h
  · simp [hcan, calls]

/-- A device has one flush and one close on record for being shut, as far as it has them. -/
theorem calls_shut_direct {device : Device} (h : (direct device).Shuts) :
    (direct device).shut.calls.toList = device.calls.toList ++
      (if device.canFlush then [.flush (direct device).flush.1.error?.isNone] else []) ++
      (if device.canClose then [.close (direct device).flush.2.close.1.error?.isNone] else []) := by
  have hflush := h.flush
  have hclose := h.close
  rw [shut]
  rw [flush_direct] at hflush hclose ⊢
  by_cases hcan : device.canFlush
  · simp only [hcan, if_true] at hflush hclose ⊢
    rw [calls_close_direct hclose, Device.calls_flush hflush, device.canClose_flush]
  · simp only [hcan] at hclose ⊢
    simpa using calls_close_direct hclose

end Output

namespace Channels

theorem shut_eq {channels : Channels} (h : channels.output.Shuts) :
    channels.shut = (channels.output.shutError?.elim (.ok ()) .failed,
      { channels with output := channels.output.shut }) := by
  have hflush := h.flush
  have hclose := h.close
  cases hflushed : channels.output.flush with
  | mk result output =>
    cases hclosed : output.close with
    | mk last after =>
      rw [hflushed] at hflush hclose
      rw [hclosed] at hclose
      cases result with
      | crashed text => exact absurd rfl (hflush text)
      | _ =>
        cases last with
        | crashed text => exact absurd rfl (hclose text)
        | _ =>
          simp [Channels.shut, Output.shut, Output.shutError?, Outcome.error?, hflushed, hclosed]

theorem exists_crash_of_not_shuts {channels : Channels} (h : ¬ channels.output.Shuts) :
    ∃ text after, channels.shut = (.crashed text, after) := by
  unfold Channels.shut
  cases hflush : channels.output.flush with
  | mk result output =>
    cases hclose : output.close with
    | mk last after =>
      cases result with
      | crashed text => exact ⟨text, _, rfl⟩
      | _ =>
        cases last with
        | crashed text => simp only [hclose]; exact ⟨text, _, rfl⟩
        | _ => exact absurd ⟨by simp [hflush], by simp [hflush, hclose]⟩ h

end Channels

end Sardine
