import Sardine.Proofs.Failure
import Sardine.Proofs.Tracking

/-! What a reading instruction takes of the bytes to come.
If the input brings some bytes and then the end of its data, and every flush before a byte goes
well, then the bytes alone say what is read and what is left, however often the instruction has to
wait. -/
namespace Sardine

namespace Input

/-- An input at the end of its data, where it stays however often it is asked. -/
inductive IsDry : Input → Prop
  | stays {input : Input} (h : input.next = (.stopped .endOfData, input)) : IsDry input
  | again {input after : Input} (h : input.next = (.stopped .endOfData, after))
      (hafter : IsDry after) : IsDry input

/-- An input that brings some bytes and after them nothing but the end of its data. Where it has
nothing yet, it goes on as the queue that has arrived by then. -/
inductive Supplies : Bytes → List Queue → Input → Prop
  | dry {input : Input} (h : input.IsDry) : Supplies [] [] input
  | byte {input after : Input} {b : UInt8} {bytes : Bytes} {arrivals : List Queue}
      (h : input.next = (.byte b, after)) (hrest : Supplies bytes arrivals after) :
      Supplies (b :: bytes) arrivals input
  | waits {input after : Input} {q : Queue} {bytes : Bytes} {arrivals : List Queue}
      (h : input.next = (.pending, after)) (hrest : Supplies bytes arrivals (.queue q)) :
      Supplies bytes (q :: arrivals) input

theorem IsDry.exists_next {input : Input} (h : input.IsDry) :
    ∃ after, input.next = (.stopped .endOfData, after) ∧ after.IsDry := by
  cases h with
  | stays h => exact ⟨input, h, IsDry.stays h⟩
  | again h hafter => exact ⟨_, h, hafter⟩

theorem supplies_bytes (bytes : Bytes) : Supplies bytes [] (.bytes bytes) := by
  induction bytes with
  | nil => exact Supplies.dry (IsDry.stays rfl)
  | cons b bytes ih => exact Supplies.byte rfl ih

theorem supplies_closed (bytes : Bytes) : Supplies bytes [] (.queue ⟨bytes, true⟩) := by
  induction bytes with
  | nil => exact Supplies.dry (IsDry.stays rfl)
  | cons b bytes ih => exact Supplies.byte rfl ih

theorem supplies_open (held : Bytes) {q : Queue} {bytes : Bytes} {arrivals : List Queue}
    (h : Supplies bytes arrivals (.queue q)) :
    Supplies (held ++ bytes) (q :: arrivals) (.queue ⟨held, false⟩) := by
  induction held with
  | nil => exact Supplies.waits rfl h
  | cons b held ih => exact Supplies.byte rfl ih

theorem Supplies.eq_nil_of_absent {bytes : Bytes} {arrivals : List Queue}
    (h : Supplies bytes arrivals .absent) : bytes = [] ∧ arrivals = [] := by
  cases h with
  | dry => exact ⟨rfl, rfl⟩
  | byte h => simp [next] at h
  | waits h => simp [next] at h

end Input

def Output.CanFlush : Nat → Output → Prop
  | 0, _ => True
  | n + 1, output => output.flush.1 = .ok () ∧ CanFlush n output.flush.2

theorem Output.CanFlush.exists_flush {n : Nat} {output : Output} (h : output.CanFlush (n + 1)) :
    ∃ after, output.flush = (.ok (), after) ∧ after.CanFlush n :=
  ⟨output.flush.2, Prod.ext h.1 rfl, h.2⟩

theorem Output.Reliable.canFlush {buffer : Bool} {output : Output} (h : output.Reliable buffer)
    (n : Nat) : output.CanFlush n := by
  induction n generalizing output with
  | zero => trivial
  | succ n ih =>
    obtain ⟨after, hflush, hafter, -⟩ := h.flush
    rw [CanFlush, hflush]
    exact ⟨rfl, ih hafter⟩

namespace Wait

/-- What is made of the bytes to come, and the bytes that are left. -/
def through : Wait → Bytes → Result × Bytes
  | w, [] => (w.atEnd, [])
  | w, b :: bytes =>
    match w.accept b with
    | .inl result => (result, bytes)
    | .inr more => more.through bytes

def further : Wait → Bytes → Nat
  | _, [] => 0
  | w, b :: bytes =>
    match w.accept b with
    | .inl _ => 0
    | .inr more => more.further bytes + 1

theorem through_of_done {w : Wait} {b : UInt8} {result : Result} (h : w.accept b = .inl result)
    (bytes : Bytes) : w.through (b :: bytes) = (result, bytes) := by
  rw [through, h]

theorem through_of_more {w more : Wait} {b : UInt8} (h : w.accept b = .inr more) (bytes : Bytes) :
    w.through (b :: bytes) = more.through bytes := by
  rw [through, h]

theorem further_of_more {w more : Wait} {b : UInt8} (h : w.accept b = .inr more) (bytes : Bytes) :
    w.further (b :: bytes) = more.further bytes + 1 := by
  rw [further, h]

end Wait

namespace Machine

/-- A reading has come to its end: it was given some of the arrivals, and what is left is still to
come. -/
def Execution.EndsReading (x : Execution) (m : Machine) (arrivals : List Queue)
    (outcome : Wait.Result × Bytes) : Prop :=
  ∃ now later after output, arrivals = now ++ later ∧ Input.Supplies outcome.2 later after ∧
    now.foldl Execution.resumed x =
      m.afterFetch (Channels.ofResult outcome.1, ⟨after, output⟩)

theorem Execution.EndsReading.at_once {m : Machine} {result : Wait.Result} {rest : Bytes}
    {arrivals : List Queue} {after : Input} (h : Input.Supplies rest arrivals after)
    (output : Output) :
    (m.afterFetch (Channels.ofResult result, ⟨after, output⟩)).EndsReading m arrivals
      (result, rest) :=
  ⟨[], arrivals, after, output, rfl, h, rfl⟩

/-- A reading that has begun goes on over the bytes to come. By induction on these: each byte either
ends the reading or leads to a longer wait, and while none has come yet, nothing changes but the
queue. -/
theorem goOn_endsReading {bytes : Bytes} {arrivals : List Queue} {input : Input}
    (h : Input.Supplies bytes arrivals input) (w : Wait) {output : Output}
    (hflush : output.CanFlush (w.further bytes)) (m : Machine) :
    (goOn w { m with channels := ⟨input, output⟩ }).EndsReading m arrivals (w.through bytes) := by
  induction h generalizing w output m with
  | @dry input h =>
    obtain ⟨after, hnext, hafter⟩ := h.exists_next
    rw [goOn, Channels.receive_of_end hnext, afterFetch_channels]
    exact Execution.EndsReading.at_once (Input.Supplies.dry hafter) output
  | @byte input after b bytes arrivals hnext hrest ih =>
    rw [goOn, Channels.receive_of_byte hnext, afterFetch_channels]
    cases haccept : w.accept b with
    | inl result =>
      rw [Wait.through_of_done haccept]
      exact Execution.EndsReading.at_once hrest output
    | inr more =>
      rw [Wait.further_of_more haccept] at hflush
      obtain ⟨flushed, hflushed, hmore⟩ := hflush.exists_flush
      have hgoes := ih more hmore m
      rw [goOn, afterFetch_channels] at hgoes
      rw [Wait.through_of_more haccept]
      simp only [hflushed]
      exact hgoes
  | @waits input after q bytes arrivals hnext hrest ih =>
    obtain ⟨now, later, last, flushed, rfl, hlast, hends⟩ := ih w hflush m
    refine ⟨q :: now, later, last, flushed, rfl, hlast, ?_⟩
    rw [goOn, Channels.receive_of_pending hnext, List.foldl_cons]
    exact hends

/-- What a step makes of a reading instruction: the bytes to come say what is read and what is
left. -/
theorem attempt_endsReading {m : Machine} {ins : Instruction} {w : Wait} (hdue : m.due? = some ins)
    (hreads : waitOf? ins.op = some w) {bytes : Bytes} {arrivals : List Queue}
    (hsupplies : m.channels.input.Supplies bytes arrivals)
    (hflush : m.channels.input ≠ .absent → m.channels.output.CanFlush (w.further bytes + 1)) :
    m.attempt.EndsReading (m.note ins) arrivals (w.through bytes) := by
  rw [attempt_of_due hdue, execute_of_wait hreads, channels_note]
  by_cases habsent : m.channels.input = .absent
  · have hfetch := (Channels.fetch_of_absent (w := w) habsent).1
    rw [habsent] at hsupplies
    obtain ⟨rfl, rfl⟩ := hsupplies.eq_nil_of_absent
    have hchannels : m.channels = ⟨.absent, m.channels.output⟩ := by rw [← habsent]
    rw [hfetch, hchannels]
    exact Execution.EndsReading.at_once hsupplies _
  · obtain ⟨flushed, hflushed, hmore⟩ := (hflush habsent).exists_flush
    have hfetch := Channels.fetch_of_flush habsent hflushed w
    have hgoes := goOn_endsReading hsupplies w hmore (m.note ins)
    rw [goOn, afterFetch_channels] at hgoes
    rw [show m.channels = ⟨m.channels.input, m.channels.output⟩ from rfl, hfetch]
    exact hgoes

end Machine

end Sardine
