import Sardine.Proofs.Calls
import Sardine.Proofs.Instructions

/-! How a step depends on the input.
All but the reading instructions leave the input alone. A reading instruction at a queue comes to
the same as one that has the rest of the bytes at hand, or waits for that rest when the queue is
empty and open. -/
namespace Sardine

namespace Channels

section Receive

variable {w : Wait} {input after : Input} {output : Output}

theorem receive_of_pending (h : input.next = (.pending, after)) :
    receive w ⟨input, output⟩ = (.waiting w, ⟨after, output⟩) := by
  rw [receive]
  split <;> simp_all

theorem receive_of_end (h : input.next = (.stopped .endOfData, after)) :
    receive w ⟨input, output⟩ = (ofResult w.atEnd, ⟨after, output⟩) := by
  rw [receive]
  split <;> simp_all

theorem receive_of_byte {b : UInt8} (h : input.next = (.byte b, after)) :
    receive w ⟨input, output⟩ =
      match w.accept b with
      | .inl result => (ofResult result, ⟨after, output⟩)
      | .inr more =>
        match output.flush with
        | (.ok (), output) => receive more ⟨after, output⟩
        | (.failed e, output) => (.failed (e.wrap flushNote), ⟨after, output⟩)
        | (.crashed text, output) => (.failed ⟨.crash text, []⟩, ⟨after, output⟩) := by
  rw [receive]
  split
  case h_5 heq =>
    obtain ⟨hb, hafter⟩ : _ ∧ _ := by simpa [h] using heq
    subst hb hafter
    rfl
  all_goals simp_all

end Receive

/-- A reading from a queue, and the same reading with the rest of the bytes at hand. -/
inductive Beside (closed : Bool) (rest : Bytes) : Fetched × Channels → Fetched × Channels → Prop
  | through {fetched : Fetched} (h : ∀ w, fetched ≠ .waiting w) (held : Bytes) (output : Output) :
      Beside closed rest (fetched, ⟨.queue ⟨held, closed⟩, output⟩)
        (fetched, ⟨.bytes (held ++ rest), output⟩)
  | waits (h : closed = false) (w : Wait) (output : Output) :
      Beside closed rest (.waiting w, ⟨.queue {}, output⟩) (receive w ⟨.bytes rest, output⟩)

theorem ofResult_ne_waiting (result : Wait.Result) (w : Wait) : ofResult result ≠ .waiting w := by
  cases result <;> simp [ofResult]

theorem shut_withInput (channels : Channels) (input : Input) :
    shut { channels with input } = (channels.shut.1, { channels.shut.2 with input }) := by
  simp only [shut]
  split
  · rfl
  · split <;> rfl
  · split <;> rfl

theorem emit_withInput (channels : Channels) (input : Input) (bytes : Bytes) :
    emit bytes { channels with input } =
      ((emit bytes channels).1, { (emit bytes channels).2 with input }) := by
  simp only [emit]
  split
  · rfl
  · split <;> rfl

section Beside

variable {closed : Bool} {rest : Bytes} (hrest : closed = true → rest = [])
include hrest

theorem receive_beside (w : Wait) (held : Bytes) (output : Output) :
    Beside closed rest (receive w ⟨.queue ⟨held, closed⟩, output⟩)
      (receive w ⟨.bytes (held ++ rest), output⟩) := by
  induction held generalizing w output with
  | nil =>
    cases closed with
    | true =>
      obtain rfl := hrest rfl
      have hqueue : (Input.queue ⟨[], true⟩).next = (.stopped .endOfData, .queue ⟨[], true⟩) := rfl
      have hbytes : (Input.bytes []).next = (.stopped .endOfData, .bytes []) := rfl
      rw [receive_of_end hqueue, List.append_nil, receive_of_end hbytes]
      exact Beside.through (ofResult_ne_waiting _) [] output
    | false =>
      have hqueue : (Input.queue ⟨[], false⟩).next = (.pending, .queue ⟨[], false⟩) := rfl
      rw [receive_of_pending hqueue]
      exact Beside.waits rfl w output
  | cons b held ih =>
    have hqueue : (Input.queue ⟨b :: held, closed⟩).next = (.byte b, .queue ⟨held, closed⟩) := rfl
    have hbytes : (Input.bytes (b :: held ++ rest)).next = (.byte b, .bytes (held ++ rest)) := rfl
    rw [receive_of_byte hqueue, receive_of_byte hbytes]
    split
    · exact Beside.through (ofResult_ne_waiting _) held output
    · split
      · exact ih _ _
      · exact Beside.through (by simp) held _
      · exact Beside.through (by simp) held _

theorem fetch_beside (w : Wait) (held : Bytes) (output : Output) :
    Beside closed rest (fetch w ⟨.queue ⟨held, closed⟩, output⟩)
      (fetch w ⟨.bytes (held ++ rest), output⟩) := by
  simp only [fetch]
  split
  · exact receive_beside hrest w held _
  · exact Beside.through (by simp) held _
  · exact Beside.through (by simp) held _

end Beside

end Channels

namespace Machine

def Execution.withInput (input : Input) : Execution → Execution
  | next m => next (m.withInput input)
  | halt m => halt (m.withInput input)
  | failed e m => failed e (m.withInput input)
  | waiting w m => waiting w (m.withInput input)

def Step.withInput (input : Input) : Step → Step
  | returned error m => returned error (m.withInput input)
  | waiting w m => waiting w (m.withInput input)
  | crashed text m => crashed text (m.withInput input)

def Step.isThrough : Step → Bool
  | waiting _ _ => false
  | _ => true

@[simp] theorem withInput_withInput (m : Machine) (input other : Input) :
    (m.withInput input).withInput other = m.withInput other := rfl

@[simp] theorem machine_withInput (s : Step) (input : Input) :
    (s.withInput input).machine = s.machine.withInput input := by
  cases s <;> rfl

section Frame

variable (m : Machine) (input : Input)

theorem finish_withInput (error : Option Error) :
    (m.withInput input).finish error = (m.finish error).withInput input := by
  have hshut : (m.withInput input).channels.shut =
      (m.channels.shut.1, { m.channels.shut.2 with input }) :=
    Channels.shut_withInput m.channels input
  unfold finish
  rw [hshut]
  obtain ⟨result, channels⟩ := m.channels.shut
  cases error <;> cases result <;> rfl

theorem settle_withInput (execution : Execution) :
    settle (execution.withInput input) = (settle execution).withInput input := by
  cases execution with
  | next m =>
    simp only [settle, Execution.withInput]
    have hpast : (m.withInput input).isPastEnd = m.isPastEnd := rfl
    rw [hpast]
    split
    · exact finish_withInput m input none
    · rfl
  | halt m => exact finish_withInput m input none
  | failed e m => exact finish_withInput m input (some e)
  | waiting w m => rfl

theorem note_withInput (ins : Instruction) :
    (m.withInput input).note ins = (m.note ins).withInput input := by
  obtain ⟨program, pc, ptr, mem, status, count, channels, trace⟩ := m
  cases trace with
  | none => rfl
  | some trace =>
    simp only [note, withInput]
    split <;> rfl

end Frame

theorem execute_of_wait {ins : Instruction} {w : Wait} (h : waitOf? ins.op = some w) (m : Machine) :
    execute ins m = m.afterFetch (Channels.fetch w m.channels) := by
  cases hop : ins.op <;> simp_all [waitOf?, execute]

theorem afterEmit_withInput (m : Machine) (input : Input) (bytes : Bytes) :
    (m.withInput input).afterEmit (Channels.emit bytes (m.withInput input).channels) =
      (m.afterEmit (Channels.emit bytes m.channels)).withInput input := by
  have hemit : Channels.emit bytes (m.withInput input).channels =
      ((Channels.emit bytes m.channels).1, { (Channels.emit bytes m.channels).2 with input }) :=
    Channels.emit_withInput m.channels input bytes
  rw [hemit]
  obtain ⟨error, channels⟩ := Channels.emit bytes m.channels
  cases error <;> rfl

theorem execute_withInput {ins : Instruction} (h : waitOf? ins.op = none) (m : Machine)
    (input : Input) : execute ins (m.withInput input) = (execute ins m).withInput input := by
  cases hop : ins.op with
  | getChar | getNumber => simp [hop, waitOf?] at h
  | putChar | putNumber =>
    simp only [execute, hop, afterEmit_detached]
    exact afterEmit_withInput m input _
  | divide =>
    have hoperand : ∀ k, (m.withInput input).operand k = m.operand k := fun _ => rfl
    simp only [execute, hop, hoperand]
    split <;> rfl
  | jumpIfPositive | jumpIfZero =>
    have hcurrent : (m.withInput input).current = m.current := rfl
    simp only [execute, hop, hcurrent]
    split <;> rfl
  | _ =>
    simp only [execute, hop]
    rfl

theorem execute_ne_waiting {ins : Instruction} (h : waitOf? ins.op = none) (m : Machine) (w : Wait)
    (after : Machine) : execute ins m ≠ .waiting w after := by
  have hexecutes := executes ins m
  generalize execute ins m = result at hexecutes ⊢
  cases hexecutes with
  | fetch w hw => simp [h] at hw
  | emit bytes =>
    obtain ⟨error, channels⟩ := Channels.emit bytes m.channels
    cases error <;> simp [afterEmit]
  | _ => simp

theorem isThrough_finish (m : Machine) (error : Option Error) :
    (m.finish error).isThrough = true := by
  unfold finish
  split <;> rfl

theorem isThrough_settle {execution : Execution} (h : ∀ w m, execution ≠ .waiting w m) :
    (settle execution).isThrough = true := by
  cases execution with
  | next m =>
    simp only [settle]
    split
    · exact isThrough_finish m none
    · rfl
  | halt m => exact isThrough_finish m none
  | failed e m => exact isThrough_finish m (some e)
  | waiting w m => exact absurd rfl (h w m)

theorem afterFetch_channels (m : Machine) (channels : Channels) (result : Fetched × Channels) :
    { m with channels }.afterFetch result = m.afterFetch result := by
  obtain ⟨fetched, after⟩ := result
  cases fetched <;> rfl

theorem perform_input (m : Machine) :
    ((∀ w after, m.perform ≠ .waiting w after) ∧
        ∀ input, (m.withInput input).perform = m.perform.withInput input) ∨
      ∃ ins w, ∀ input, (m.withInput input).perform =
        (m.note ins).afterFetch (Channels.fetch w ⟨input, m.channels.output⟩) := by
  have hbounds : ∀ input, (m.withInput input).inBounds = m.inBounds := fun _ => rfl
  have hhere : ∀ input, (m.withInput input).upcoming = m.upcoming := fun _ => rfl
  simp only [perform, hbounds, hhere]
  by_cases hin : m.inBounds
  · simp only [hin, if_true]
    cases m.upcoming with
    | error e => exact Or.inl ⟨by simp, fun _ => rfl⟩
    | ok ins =>
      cases hwait : waitOf? ins.op with
      | none =>
        refine Or.inl ⟨execute_ne_waiting hwait _, fun input => ?_⟩
        simp only [note_withInput, execute_withInput hwait]
      | some w =>
        refine Or.inr ⟨ins, w, fun input => ?_⟩
        simp only [note_withInput, execute_of_wait hwait]
        rw [withInput, afterFetch_channels, channels_note]
  · simp only [hin]
    exact Or.inl ⟨by simp, fun _ => rfl⟩

/-- A step leaves the input alone, or is a reading instruction. -/
theorem step_input (m : Machine) :
    (m.step.isThrough = true ∧ ∀ input, (m.withInput input).step = m.step.withInput input) ∨
      ∃ ins w, ∀ input, (m.withInput input).step =
        settle ((m.note ins).afterFetch (Channels.fetch w ⟨input, m.channels.output⟩)) := by
  have hstatus : ∀ input, (m.withInput input).status = m.status := fun _ => rfl
  have hpast : ∀ input, (m.withInput input).isPastEnd = m.isPastEnd := fun _ => rfl
  simp only [step, hstatus, hpast]
  cases m.status with
  | ended => exact Or.inl ⟨rfl, fun _ => rfl⟩
  | running =>
    by_cases hend : m.isPastEnd
    · simp only [hend, if_true]
      exact Or.inl ⟨isThrough_finish m none, fun input => finish_withInput m input none⟩
    · simp only [hend]
      rcases perform_input m with ⟨hthrough, hsame⟩ | ⟨ins, w, hread⟩
      · refine Or.inl ⟨isThrough_settle hthrough, fun input => ?_⟩
        simp only [hsame, Bool.false_eq_true, if_false]
        exact settle_withInput input m.perform
      · exact Or.inr ⟨ins, w, fun input => by simp only [hread, Bool.false_eq_true, if_false]⟩

/-- A step at a queue, and the same step with the rest of the bytes at hand. -/
inductive Step.Beside (closed : Bool) (rest : Bytes) : Step → Step → Prop
  | through {s : Step} (h : s.isThrough = true) {held : Bytes}
      (hinput : s.machine.channels.input = .queue ⟨held, closed⟩) :
      Beside closed rest s (s.withInput (.bytes (held ++ rest)))
  | waits (h : closed = false) (w : Wait) {m : Machine} (hinput : m.channels.input = .queue {}) :
      Beside closed rest (.waiting w m) (Machine.resume w (m.withInput (.bytes rest)))

theorem withInput_of_eq {m : Machine} {input : Input} (h : m.channels.input = input) :
    m.withInput input = m := by
  rw [← h]
  rfl

/-- What is done after a reading, at a queue and with the rest at hand. -/
theorem settle_beside {closed : Bool} {rest : Bytes} {here there : Fetched × Channels}
    (h : Channels.Beside closed rest here there) (m : Machine) :
    Step.Beside closed rest (settle (m.afterFetch here)) (settle (m.afterFetch there)) := by
  cases h with
  | @through fetched hfetched held output =>
    have hsame : m.afterFetch (fetched, ⟨.bytes (held ++ rest), output⟩) =
        (m.afterFetch (fetched, ⟨.queue ⟨held, closed⟩, output⟩)).withInput
          (.bytes (held ++ rest)) := by
      cases fetched <;> rfl
    have hthrough : ∀ w after,
        m.afterFetch (fetched, ⟨.queue ⟨held, closed⟩, output⟩) ≠ .waiting w after := by
      intro w after
      cases fetched with
      | waiting v => exact absurd rfl (hfetched v)
      | _ => simp [afterFetch]
    have hqueue : m.afterFetch (fetched, ⟨.queue ⟨held, closed⟩, output⟩) =
        (m.afterFetch (fetched, ⟨.queue ⟨held, closed⟩, output⟩)).withInput
          (.queue ⟨held, closed⟩) := by
      cases fetched <;> rfl
    rw [hsame, settle_withInput]
    refine Step.Beside.through (isThrough_settle hthrough) ?_
    rw [hqueue, settle_withInput, machine_withInput]
    rfl
  | waits hopen w output =>
    have hresume : Machine.resume w
        ({ m with channels := ⟨.queue {}, output⟩ }.withInput (.bytes rest)) =
          settle (m.afterFetch (Channels.receive w ⟨.bytes rest, output⟩)) :=
      congrArg settle (afterFetch_channels m ⟨.bytes rest, output⟩ _)
    rw [← hresume]
    exact Step.Beside.waits hopen w rfl

section Queue

variable {closed : Bool} {held rest : Bytes} {m : Machine}
  (hinput : m.channels.input = .queue ⟨held, closed⟩) (hrest : closed = true → rest = [])
include hinput hrest

theorem step_beside :
    Step.Beside closed rest m.step (m.withInput (.bytes (held ++ rest))).step := by
  have hself := withInput_of_eq hinput
  rcases step_input m with ⟨hthrough, hsame⟩ | ⟨ins, w, hread⟩
  · rw [hsame]
    refine Step.Beside.through hthrough ?_
    rw [← hself, hsame, machine_withInput]
    rfl
  · have hstep := hread (.queue ⟨held, closed⟩)
    rw [hself] at hstep
    rw [hstep, hread]
    exact settle_beside (Channels.fetch_beside hrest w held _) _

theorem resume_beside (w : Wait) :
    Step.Beside closed rest (Machine.resume w m)
      (Machine.resume w (m.withInput (.bytes (held ++ rest)))) := by
  have hself : m.channels = ⟨.queue ⟨held, closed⟩, m.channels.output⟩ := by rw [← hinput]
  rw [resume, resume, hself, withInput, afterFetch_channels]
  exact settle_beside (Channels.receive_beside hrest w held _) m

end Queue

end Machine

end Sardine
