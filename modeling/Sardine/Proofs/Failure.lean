import Sardine.Proofs.Attempts

/-! Instructions that fail.
Such an instruction leaves the registers and the memory as they were, however often it had to wait
before, and the error of its step says where the program counter stands. Errors of a step that do
not say so come from a program that has ended before or from shutting the output. -/
namespace Sardine.Machine

theorem Leads.trans {m middle : Machine} {w : Wait} (h : m.Leads (.waiting w middle))
    {input : Input} {x : Execution} (hx : (middle.withInput input).Leads x) : m.Leads x := by
  obtain ⟨hpc, hptr, hmem⟩ := h.kept (by simp)
  refine ⟨hx.program.trans h.program, hx.status.trans h.status, h.output.trans hx.output, ?_⟩
  intro hnot
  obtain ⟨hpc', hptr', hmem'⟩ := hx.kept hnot
  exact ⟨hpc'.trans hpc, hptr'.trans hptr, hmem'.trans hmem⟩

/-- Lets an execution go on that is waiting for the queue. -/
def Execution.resumed (x : Execution) (q : Queue) : Execution :=
  match x with
  | waiting w m => (m.withInput (.queue q)).goOn w
  | other => other

def Step.resumed (s : Step) (q : Queue) : Step :=
  match s with
  | waiting w m => Machine.resume w (m.withInput (.queue q))
  | other => other

/-- What a step of a running machine executes, given the queue each time that it goes on. -/
def attemptOver (m : Machine) (qs : List Queue) : Execution := qs.foldl Execution.resumed m.attempt

def stepOver (m : Machine) (qs : List Queue) : Step := qs.foldl Step.resumed m.step

theorem resumed_of_isThrough {s : Step} (h : s.isThrough = true) (q : Queue) : s.resumed q = s := by
  cases s with
  | waiting w m => simp [Step.isThrough] at h
  | _ => rfl

theorem settle_resumed (x : Execution) (q : Queue) :
    settle (x.resumed q) = (settle x).resumed q := by
  by_cases hwaits : ∃ w m, x = .waiting w m
  · obtain ⟨w, m, rfl⟩ := hwaits
    rfl
  · have hnot : ∀ w m, x ≠ .waiting w m := fun w m hx => hwaits ⟨w, m, hx⟩
    have hsame : x.resumed q = x := by
      cases x with
      | waiting w m => exact absurd rfl (hnot w m)
      | _ => rfl
    rw [hsame, resumed_of_isThrough (isThrough_settle hnot)]

theorem stepOver_of_running {m : Machine} (h : m.status = .running) (qs : List Queue) :
    m.stepOver qs = settle (m.attemptOver qs) := by
  have hall : ∀ x : Execution, qs.foldl Step.resumed (settle x) =
      settle (qs.foldl Execution.resumed x) := by
    induction qs with
    | nil => exact fun _ => rfl
    | cons q qs ih =>
      intro x
      rw [List.foldl_cons, List.foldl_cons, ← settle_resumed, ih]
  rw [stepOver, step_of_running h, hall, attemptOver]

theorem stepOver_of_ended {m : Machine} (h : m.status = .ended) (qs : List Queue) :
    m.stepOver qs = .returned (some ⟨.ended, []⟩) m := by
  rw [stepOver, step_of_ended h]
  induction qs with
  | nil => rfl
  | cons q qs ih => exact ih

theorem Leads.resumed {m : Machine} {x : Execution} (h : m.Leads x) (q : Queue) :
    m.Leads (x.resumed q) := by
  cases x with
  | waiting w middle => exact h.trans (leads_goOn w _)
  | _ => exact h

theorem leads_attemptOver (m : Machine) (qs : List Queue) : m.Leads (m.attemptOver qs) := by
  have hall : ∀ x : Execution, m.Leads x → m.Leads (qs.foldl Execution.resumed x) := by
    induction qs with
    | nil => exact fun _ h => h
    | cons q qs ih => exact fun x h => ih _ (h.resumed q)
  exact hall _ m.leads_attempt

def Execution.error? : Execution → Option Error
  | failed e _ => some e
  | _ => none

theorem eq_failed {x : Execution} {e : Error} (h : x.error? = some e) :
    x = .failed e x.machine := by
  cases x with
  | failed other m => exact congrArg (Execution.failed · m) (Option.some.inj h)
  | _ => simp [Execution.error?] at h

theorem settle_failed {m : Machine} (h : m.channels.output.Shuts) (e : Error) :
    settle (.failed e m) = .returned (some (m.atPc e)) m.shutDown :=
  (Execution.Ends.failed e m).settle_of_shuts h

theorem message_atPc (m : Machine) (e : Error) :
    utf8 "pc " ++ Decimal.ofInt m.pc ++ utf8 ": " <+: (m.atPc e).message :=
  ⟨e.message, (Error.message_wrap _ e).symm⟩

/-- An error with which a step comes back is that of a program that has ended before, or that of an
instruction, or that of shutting the output after an instruction that did not fail. -/
theorem error_of_stepOver {m after : Machine} {qs : List Queue} {error : Error}
    (h : m.stepOver qs = .returned (some error) after) :
    (m.status = .ended ∧ error = ⟨.ended, []⟩ ∧ after = m) ∨
      (∃ e failed, m.attemptOver qs = .failed e failed ∧ error = m.atPc e) ∨
      ∃ last, (m.attemptOver qs).Ends none last ∧ last.channels.output.shutError? = some error := by
  cases hstatus : m.status with
  | ended =>
    rw [stepOver_of_ended hstatus] at h
    obtain ⟨rfl, rfl⟩ : (⟨.ended, []⟩ : Error) = error ∧ m = after := by simpa using h
    exact Or.inl ⟨rfl, rfl, rfl⟩
  | running =>
    have hleads := m.leads_attemptOver qs
    have hsettles := settles (m.attemptOver qs)
    rw [← stepOver_of_running hstatus, h] at hsettles
    generalize m.attemptOver qs = x at hsettles hleads ⊢
    generalize hreturned : Step.returned (some error) after = s at hsettles
    cases hsettles with
    | goes => simp at hreturned
    | waits => simp at hreturned
    | crashes => simp at hreturned
    | @ends _ error' last hends hshuts =>
      have herror : last.firstError error' = some error := (Step.returned.inj hreturned).1.symm
      cases hends with
      | past hpast => exact Or.inr (Or.inr ⟨_, Execution.Ends.past hpast, herror⟩)
      | exit => exact Or.inr (Or.inr ⟨_, Execution.Ends.exit _, herror⟩)
      | failed e =>
        have hpc : last.pc = m.pc := (hleads.kept (by simp)).1
        have hwrapped : last.atPc e = error := Option.some.inj herror
        exact Or.inr (Or.inl ⟨e, last, rfl, by rw [← hwrapped, atPc, atPc, hpc]⟩)

end Sardine.Machine

namespace Sardine

/-- An instruction that fails, with an output that can be shut, ends the program with an error that
names the program counter, and the registers and the memory are those before the step. All other
errors of a step are that of a program that has ended before and, where the instruction was through
or none was left, that of the last flush or of the close. -/
theorem failure_keeps_registers (m : Machine) (qs : List Queue) :
    (m.status = .running → ∀ e failed, m.attemptOver qs = .failed e failed →
      failed.channels.output.Shuts →
        ∃ error after, m.stepOver qs = .returned (some error) after ∧
          utf8 "pc " ++ Decimal.ofInt m.pc ++ utf8 ": " <+: error.message ∧
          error = m.atPc e ∧ after.status = .ended ∧
          after.pc = m.pc ∧ after.ptr = m.ptr ∧ after.mem = m.mem) ∧
      ∀ error after, m.stepOver qs = .returned (some error) after →
        (m.status = .ended ∧ error = ⟨.ended, []⟩ ∧ after = m) ∨
          (∃ e failed, m.attemptOver qs = .failed e failed ∧ error = m.atPc e) ∨
          ∃ last, (m.attemptOver qs).Ends none last ∧
            last.channels.output.shutError? = some error := by
  refine ⟨fun hrunning e failed hfailed hshuts => ?_, fun error after => Machine.error_of_stepOver⟩
  have hleads := m.leads_attemptOver qs
  rw [hfailed] at hleads
  obtain ⟨hpc, hptr, hmem⟩ := hleads.kept (by simp)
  have hpc : failed.pc = m.pc := hpc
  have hatPc : failed.atPc e = m.atPc e := by rw [Machine.atPc, Machine.atPc, hpc]
  refine ⟨m.atPc e, failed.shutDown, ?_, m.message_atPc e, rfl, rfl, hpc, hptr, hmem⟩
  rw [Machine.stepOver_of_running hrunning, hfailed, Machine.settle_failed hshuts, hatPc]

/-- A number that arrives in two pieces turns out to be none. The cell and the registers are as
before, though the instruction has taken bytes and flushed the output. -/
theorem failure_keeps_registers_splitNumber :
    let m : Machine :=
      { program := ⟨#[{ op := .nop }, { op := .getNumber }], []⟩
        pc := 1
        ptr := 1
        mem := #[7, 8]
        channels := { input := .queue {}, output := .direct { canFlush := true } } }
    let qs : List Queue := [⟨utf8 "1", false⟩, ⟨utf8 "x\n9", true⟩]
    ∃ failed, m.attemptOver qs = .failed ⟨.invalidNumber (utf8 "1x"), []⟩ failed ∧
      ∃ error after, m.stepOver qs = .returned (some error) after ∧
        error.message = utf8 "pc 1: invalid number \"1x\"" ∧ after.status = .ended ∧
        after.pc = 1 ∧ after.ptr = 1 ∧ after.mem = #[7, 8] := by
  intro m qs
  have hfailed := Machine.eq_failed (x := m.attemptOver qs)
    (e := ⟨.invalidNumber (utf8 "1x"), []⟩) (by decide +kernel)
  generalize hfailed' : (m.attemptOver qs).machine = failed at hfailed
  have hcalm : m.channels.output.Calm := Device.calm_of_faults rfl
  have hshuts : failed.channels.output.Shuts := by
    rw [← hfailed']
    exact hcalm.alwaysShuts _ (m.leads_attemptOver qs).output
  obtain ⟨error, after, hstep, -, herror, hended, hpc, hptr, hmem⟩ :=
    (failure_keeps_registers m qs).1 rfl _ failed hfailed hshuts
  refine ⟨failed, hfailed, error, after, hstep, ?_, hended, hpc, hptr, hmem⟩
  rw [herror]
  decide +kernel

end Sardine
